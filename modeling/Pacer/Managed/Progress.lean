import Pacer.Managed.Safety

set_option autoImplicit false

/-! # No thread is stuck

A thread in an operation is getting its guard or goes on in the tree (`Pace`). In both cases its
next step is there (`thread_steps`): `startOp` never blocks, and in the tree a thread never needs a
node whose memory has been given away.
-/

namespace Pacer.Managed

open Machine Abtree

variable {F K : Type} [F64 F] [LinearOrder K] {N : Nat} {P : Provider K} {M : RecordManager}
  {b : Nat} {s : State F K N} {anyKey : K}
  {tr : List (Trans (State F K N) (Action K P.Env N))}

omit [LinearOrder K] in
theorem Agree.symm {B : Set Nat} {h h' : Heap K} (A : Agree B h h') : Agree B h' h :=
  ⟨A.length.symm, fun x hx => (A.cell x hx).symm⟩

end Pacer.Managed
