import EntityScript.Proofs.Token.Tiling

/-!
# Lines that never go back

`Rising low high lines` says that lines are in the order of the source, none before the line `low`
and none behind the line `high`. The tokens of a source stand on such lines, from the first of the
source to its last.
-/

namespace EntityScript

/-- Lines that never go back, all of them from one line on and up to another. -/
structure Rising (low high : ℕ) (lines : List ℕ) : Prop where
  sorted : lines.Pairwise (· ≤ ·)
  low_le : ∀ n ∈ lines, low ≤ n
  le_high : ∀ n ∈ lines, n ≤ high

namespace Rising

variable {low mid high : ℕ} {lines more : List ℕ}

/-- No lines are in order. -/
theorem nil : Rising low high [] := ⟨.nil, by simp, by simp⟩

/-- A line repeated is in order. -/
theorem replicate (count : ℕ) {line : ℕ} (hlow : low ≤ line) (hhigh : line ≤ high) :
    Rising low high (List.replicate count line) where
  sorted := List.pairwise_replicate.2 (.inr (Nat.le_refl line))
  low_le _ hn := (List.eq_of_mem_replicate hn).symm ▸ hlow
  le_high _ hn := (List.eq_of_mem_replicate hn).symm ▸ hhigh

/-- Lines in order are so between wider bounds. -/
theorem widen {low' high' : ℕ} (h : Rising low high lines) (hlow : low' ≤ low)
    (hhigh : high ≤ high') : Rising low' high' lines where
  sorted := h.sorted
  low_le n hn := Nat.le_trans hlow (h.low_le n hn)
  le_high n hn := Nat.le_trans (h.le_high n hn) hhigh

/-- Some of the lines are in the order of all. -/
theorem sublist (h : Rising low high lines) (hmore : more.Sublist lines) :
    Rising low high more where
  sorted := h.sorted.sublist hmore
  low_le n hn := h.low_le n (hmore.subset hn)
  le_high n hn := h.le_high n (hmore.subset hn)

/-- Lines in order behind others, with a bound between them, are in order together. -/
theorem append (h : Rising low mid lines) (hmore : Rising mid high more) (hlow : low ≤ mid)
    (hhigh : mid ≤ high) : Rising low high (lines ++ more) where
  sorted := List.pairwise_append.2 ⟨h.sorted, hmore.sorted,
    fun m hm n hn => Nat.le_trans (h.le_high m hm) (hmore.low_le n hn)⟩
  low_le n hn := by
    rcases List.mem_append.1 hn with hn | hn
    · exact h.low_le n hn
    · exact Nat.le_trans hlow (hmore.low_le n hn)
  le_high n hn := by
    rcases List.mem_append.1 hn with hn | hn
    · exact Nat.le_trans (h.le_high n hn) hhigh
    · exact hmore.le_high n hn

/-- One more line, at the end. -/
theorem concat (h : Rising low high lines) (hlow : low ≤ high) :
    Rising low high (lines ++ [high]) :=
  h.append (replicate 1 (Nat.le_refl high) (Nat.le_refl high)) hlow (Nat.le_refl high)

/-- The first of some lines bounds the others. -/
theorem tail {line : ℕ} (h : Rising low high (line :: lines)) : Rising line high lines where
  sorted := h.sorted.of_cons
  low_le _ hn := List.rel_of_pairwise_cons h.sorted hn
  le_high n hn := h.le_high n (List.mem_cons_of_mem line hn)

end Rising

namespace Token

namespace Cursor

/-- The lines of tokens never go back, and lie between those where the calls begin and end. -/
theorem Laid.rising {c c' : Cursor} {tiles : List Tile} (h : Laid c tiles c') :
    c.line ≤ c'.line ∧ Rising c.line c'.line (tiles.map (·.token.line)) := by
  induction h with
  | nil c => exact ⟨Nat.le_refl _, .nil⟩
  | @cons c c₁ c₂ t tiles first rest ih =>
    obtain ⟨hle, hrest⟩ := ih
    have hbehind := first.behind.line
    rw [Tile.text, String.toList_append, List.count_append] at hbehind
    have hline := first.line
    refine ⟨by omega, ?_⟩
    have hfirst : Rising c.line c₁.line [t.token.line] := .replicate 1 (by omega) (by omega)
    exact hfirst.append hrest (by omega) hle

end Cursor

/-- The tokens of a source stand on lines that never go back, and the source ends on its last
line. -/
theorem tokenize_rising (source : String) : tokenize source = words source ++ [ending source] ∧
    Rising 1 (ending source).line ((words source).map Token.line) := by
  obtain ⟨tiles, c', closing, c'', hlaid, hcloses⟩ := (Cursor.start source).exists_laid
  have hbehind := hlaid.behind.trans hcloses.behind
  rw [← (hlaid.tiling hcloses).covers] at hbehind
  have htokens : tokenize source = tiles.map Tile.token ++ [ending source] := by
    rw [tokenize, Stream.ofSource, Stream.collect_of_laid hlaid hcloses, hbehind.line]
    rfl
  have hwords : words source = tiles.map Tile.token := by
    rw [words, htokens, List.dropLast_concat]
  refine ⟨by rw [hwords, htokens], ?_⟩
  have hclosing := hcloses.behind.line
  have hending : (ending source).line = c''.line := hbehind.line.symm
  rw [hwords, List.map_map]
  exact hlaid.rising.2.widen (Nat.le_refl 1) (by omega)

end Token

end EntityScript
