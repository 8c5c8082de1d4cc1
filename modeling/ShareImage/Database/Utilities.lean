import Mathlib.Data.List.Sort

namespace ShareImage.FUtilities

def tryParseStringToInt (str : String) : Option Int :=
  let negative := str.toList.head?==some '-'
  let digits := if negative then str.toList.tail else str.toList
  if str.length>11 || digits.isEmpty || !digits.all Char.isDigit then none
  else
    let value : Int := Nat.ofDigitChars 10 digits 0
    let integer := if negative then -value else value
    if integer<(-2147483648) || integer>2147483647 then none else some integer

/-- The units that a literal comparison of strings goes through. -/
def unichars (str : String) : List Nat :=
  str.toList.flatMap fun c =>
    if c.toNat<0x10000 then [c.toNat]
    else [0xD800+(c.toNat-0x10000)/0x400,0xDC00+(c.toNat-0x10000)%0x400]

/-- `compareKey:toKey:` of keys of the data: integers come first, and are the same if they have one
value and one length. -/
def compareKey (a b : String) : Ordering :=
  match tryParseStringToInt a,tryParseStringToInt b with
  | some aAsInt,some bAsInt => (compare aAsInt bAsInt).then (compare a.length b.length)
  | some _,none => .lt
  | none,some _ => .gt
  | none,none => compare (unichars a) (unichars b)

/-- The entries in the order of their keys. -/
def sortedByKey {Value : Type*} (entries : List (String × Value)) : List (String × Value) :=
  entries.insertionSort fun x y => (compareKey x.1 y.1).isLE=true

theorem sortedByKey_perm {Value : Type*} (entries : List (String × Value)) :
    (sortedByKey entries).Perm entries :=
  List.perm_insertionSort _ entries

theorem mem_sortedByKey {Value : Type*} (entries : List (String × Value)) (x : String × Value) :
    x∈sortedByKey entries ↔ x∈entries :=
  (sortedByKey_perm entries).mem_iff

example : compareKey "00" "-0"=.eq := by decide

example : sortedByKey [("b",1),("10",2),("9",3)]=[("9",3),("10",2),("b",1)] := by decide

end ShareImage.FUtilities
