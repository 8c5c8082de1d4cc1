import Mathlib.Data.List.Induction

namespace Framework

/-- The digits are those of a number as it is written, without leading zeroes. -/
structure Decimal (cs : List Char) : Prop where
  nonempty : cs≠[]
  digits : ∀c∈cs,c.isDigit=true
  leading : ∀rest,cs= '0'::rest → rest=[]

namespace Decimal

theorem init {cs : List Char} {c : Char} (h : Decimal (cs++[c])) (hne : cs≠[]) : Decimal cs := by
  refine ⟨hne,fun x hx => h.digits x (List.mem_append_left _ hx),?_⟩
  rintro rest rfl
  have hnil := h.leading (rest++[c]) rfl
  simp at hnil

end Decimal

end Framework
