import EntityScript.Baked.Wire
import EntityScript.Script

/-!
# Baked scripts

A script as bytes, to be run without its source. The bytes hold everything: names, states, code,
constants to the bit, and source lines. Bytes behind a baked script are ignored.
-/

namespace EntityScript.Baked

/-- The bytes of a chunk. -/
def putChunk (c : Chunk) : List UInt8 :=
  putString c.name ++ (putArray (fun b => [b]) c.code
    ++ (putArray putValue c.constants ++ putArray putVarint c.lines))

/-- Takes a chunk. -/
def takeChunk : Reader Chunk := do
  let name ← takeString
  let code ← takeArray Reader.byte
  let constants ← takeArray takeValue
  let lines ← takeArray takeLength
  pure { name, code, constants, lines }

/-- The bytes of a script. -/
def putScript (s : Script) : List UInt8 :=
  putString s.name ++ (putString s.path ++ (putArray putString s.states.toArray
    ++ (putTable (putTable putChunk) s.handlers ++ putTable putType s.declared)))

/-- Takes a script. -/
def takeScript : Reader Script := do
  let name ← takeString
  let path ← takeString
  let states ← takeArray takeString
  let handlers ← takeTable (takeTable takeChunk)
  let declared ← takeTable takeType
  pure { name, path, states := states.toList, handlers, declared }

end EntityScript.Baked

namespace EntityScript.Script

/-- The script as bytes. -/
def bake (s : Script) : List UInt8 := Baked.putScript s

/-- The script that bytes begin with. -/
def unbake (bytes : List UInt8) : Except Baked.DecodeError Script :=
  (Baked.takeScript bytes).map (·.1)

end EntityScript.Script
