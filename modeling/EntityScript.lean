import EntityScript.Main
import EntityScript.World
import EntityScript.Proofs.Baked.Faithful
import EntityScript.Proofs.Machine.Contained
import EntityScript.Proofs.Machine.Custody
import EntityScript.Proofs.Machine.Faulting
import EntityScript.Proofs.Machine.Lived
import EntityScript.Proofs.Machine.Refinement
import EntityScript.Proofs.Machine.Structural
import EntityScript.Proofs.Machine.Binding
import EntityScript.Proofs.Machine.Scope
import EntityScript.Proofs.Machine.Registers
import EntityScript.Proofs.Machine.Pile
import EntityScript.Proofs.Machine.Recast
import EntityScript.Proofs.Machine.Reused
import EntityScript.Proofs.Machine.Bounded
import EntityScript.Proofs.Machine.Exhausted
import EntityScript.Proofs.Machine.Guarded
import EntityScript.Proofs.Machine.Reported
import EntityScript.Proofs.Machine.Draining
import EntityScript.Proofs.Meaning.Applied
import EntityScript.Proofs.Machine.Uncoerced
import EntityScript.Proofs.Library.Consistent
import EntityScript.Proofs.Token.Tiling
import EntityScript.Proofs.Compile.Finished
import EntityScript.Proofs.Files
import EntityScript.Proofs.Machine.Reissued
import EntityScript.Proofs.Console.Transparent
import EntityScript.Proofs.Library.Reloaded
import EntityScript.Proofs.Machine.Carried
import EntityScript.Proofs.Library.Session
import EntityScript.Proofs.Compile.Unlined
import EntityScript.Proofs.Compile.Rendered
import EntityScript.Proofs.Compile.Separate
import EntityScript.Proofs.Compile.Diagnosed
import EntityScript.Proofs.Baked.Canonical
import EntityScript.Proofs.Machine.Decoded
import EntityScript.Proofs.Compile.Ordered
import EntityScript.Proofs.Compile.Traced
import EntityScript.Proofs.Bytecode.Interned
import EntityScript.Proofs.Compile.Quoted
import EntityScript.Proofs.Compile.Literals
import EntityScript.Proofs.Machine.Printed
