import Mathlib.Logic.Function.Basic

namespace Framework

/-- Every entry of the table is one that `E` accounts for. -/
def Supported {Key Value : Type*} (E : Key → Value → Prop) (table : Key → Option Value) : Prop :=
  ∀k v,table k=some v → E k v

section Table

variable {Key Value : Type*} {E F : Key → Value → Prop} {table : Key → Option Value}

theorem supported_empty : Supported E (fun _ => none) := by
  intro k v h
  contradiction

theorem Supported.mono (h : Supported E table) (hEF : ∀k v,E k v → F k v) :
    Supported F table := fun k v hv => hEF k v (h k v hv)

/-- Writing `none` removes the entry, and nothing has to account for that. -/
theorem Supported.update [DecidableEq Key] (h : Supported E table) (k : Key) (v : Option Value)
    (hv : ∀x,v=some x → E k x) : Supported E (Function.update table k v) := by
  intro j x hx
  by_cases hj : j=k
  · subst hj
    exact hv x (by simpa using hx)
  · exact h j x (by simpa [hj] using hx)

/-- A write keeps all that the table holds if there was no entry, or the same one. -/
theorem update_keeps_iff [DecidableEq Key] (k : Key) (v : Option Value) :
    (∀j x,table j=some x → Function.update table k v j=some x) ↔ table k=none ∨ table k=v := by
  constructor
  · intro h
    cases hk : table k with
    | none => exact .inl rfl
    | some x =>
      have hx : Function.update table k v k=some x := h k x hk
      rw [Function.update_self] at hx
      exact .inr hx.symm
  · intro h j x hj
    by_cases hjk : j=k
    · subst hjk
      rw [Function.update_self]
      rcases h with hnone | hsame
      · rw [hnone] at hj
        contradiction
      · exact hsame.symm.trans hj
    · rw [Function.update_of_ne hjk]
      exact hj

end Table

end Framework
