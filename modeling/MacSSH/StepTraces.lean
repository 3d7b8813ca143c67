import Mathlib.Data.List.Basic

/-! Traces of steps with the states before them. A property that every step keeps, under a
condition on the step and the state before it, holds along a trace all of whose steps meet
the condition. -/
namespace Traces

variable {σ α : Type} {C M : σ → α → Prop}

/-- If all steps of the trace meet `C`, they satisfy `M` in the states before them, and the
end of the trace satisfies `Q`. -/
def Along (C M : σ → α → Prop) (trace : List (σ × α)) (Q : Prop) : Prop :=
  (∀ m ∈ trace, C m.1 m.2) → (∀ m ∈ trace, M m.1 m.2) ∧ Q

namespace Along
variable {trace later : List (σ × α)} {P Q : Prop}

theorem nil (hq : Q) : Along C M [] Q := fun _ => ⟨by simp, hq⟩

/-- One step, and then the others. -/
theorem cons {s : σ} {a : α} (hs : M s a) (h : C s a → Along C M trace Q) :
    Along C M ((s, a) :: trace) Q := by
  intro hc
  have hall := h (hc (s, a) List.mem_cons_self) fun m hm => hc m (List.mem_cons_of_mem _ hm)
  refine ⟨?_, hall.2⟩
  intro m hm
  rcases List.mem_cons.mp hm with rfl | hm
  · exact hs
  · exact hall.1 m hm

theorem single {s : σ} {a : α} (hs : M s a) (h : C s a → Q) : Along C M [(s, a)] Q :=
  cons hs fun hc => nil (h hc)

theorem append (h : Along C M trace P) (h' : P → Along C M later Q) :
    Along C M (trace ++ later) Q := by
  intro hc
  have hfirst := h fun m hm => hc m (List.mem_append_left _ hm)
  have hlater := h' hfirst.2 fun m hm => hc m (List.mem_append_right _ hm)
  refine ⟨?_, hlater.2⟩
  intro m hm
  rcases List.mem_append.mp hm with hm | hm
  · exact hfirst.1 m hm
  · exact hlater.1 m hm

theorem mono (h : Along C M trace P) (hpq : P → Q) : Along C M trace Q :=
  fun hc => ⟨(h hc).1, hpq (h hc).2⟩

end Along

end Traces
