import Mathlib.Algebra.GroupWithZero.Nat
import Mathlib.Data.List.Basic
import Mathlib.Data.List.Nodup
import Mathlib.Data.List.Perm.Basic

namespace Framework

/-- The entries of a log that `i` owns. -/
def own {Entry : Type*} (owner : Entry → Nat) (i : Nat) (log : List Entry) : List Entry :=
  log.filter fun e => owner e==i

section Log

variable {Entry : Type*} {owner : Entry → Nat}

@[simp] theorem own_append (i : Nat) (xs ys : List Entry) :
    own owner i (xs++ys)=own owner i xs++own owner i ys := List.filter_append ..

theorem mem_own (i : Nat) (log : List Entry) (e : Entry) :
    e∈own owner i log ↔ e∈log ∧ owner e=i := by
  simp [own]

theorem own_ne_nil (log : List Entry) (e : Entry) (he : e∈log) : own owner (owner e) log≠[] :=
  List.ne_nil_of_mem ((mem_own ..).mpr ⟨he,rfl⟩)

theorem own_self (i : Nat) (log : List Entry) (h : ∀e∈log,owner e=i) :
    own owner i log=log := by
  apply List.filter_eq_self.mpr
  intro e he
  simpa using h e he

theorem own_other (i : Nat) (log : List Entry) (h : ∀e∈log,owner e≠i) :
    own owner i log=[] := by
  apply List.filter_eq_nil_iff.mpr
  intro e he
  simpa using h e he

theorem cons_eraseIdx_perm (l : List Entry) (k : Nat) (a : Entry) (h : l[k]?=some a) :
    (a::l.eraseIdx k).Perm l := by
  obtain ⟨hlt,hget⟩ := List.getElem?_eq_some_iff.mp h
  rw [←hget]
  exact List.getElem_cons_eraseIdx_perm hlt

/-- An entry other than the erased one is still there. -/
theorem mem_eraseIdx_of_ne (l : List Entry) (k : Nat) (a b : Entry) (h : l[k]?=some a)
    (hb : b∈l) (hne : b≠a) : b∈l.eraseIdx k := by
  rcases List.mem_cons.mp ((cons_eraseIdx_perm l k a h).mem_iff.mpr hb) with heq | hmem
  · exact absurd heq hne
  · exact hmem

/-- A new entry whose key is unused keeps the keys distinct. -/
theorem nodup_map_concat {Key : Type*} (key : Entry → Key) (log : List Entry) (e : Entry)
    (hlog : (log.map key).Nodup) (hnew : ∀a∈log,key a≠key e) : ((log++[e]).map key).Nodup := by
  rw [List.map_append,List.nodup_append]
  refine ⟨hlog,by simp,?_⟩
  intro a ha b hb hab
  obtain ⟨x,hx,rfl⟩ := List.mem_map.mp ha
  exact hnew x hx (hab.trans (by simpa using hb))

theorem countP_concat (P : Entry → Bool) (log : List Entry) (e : Entry) :
    (log++[e]).countP P=log.countP P+if P e then 1 else 0 := by
  rw [List.countP_append,List.countP_singleton]

/-- The sum over a list after one entry has changed. -/
theorem sum_map_set (g : Entry → Nat) (l : List Entry) (i : Nat) (a b : Entry)
    (h : l[i]?=some a) : ((l.set i b).map g).sum+g a=(l.map g).sum+g b := by
  induction l generalizing i with
  | nil => simp at h
  | cons x l ih =>
    cases i with
    | zero =>
      have hx : x=a := by simpa using h
      subst hx
      simp only [List.set_cons_zero,List.map_cons,List.sum_cons]
      omega
    | succ i =>
      have htail := ih i (by simpa using h)
      simp only [List.set_cons_succ,List.map_cons,List.sum_cons]
      omega

/-- When each owner has one entry at most, and the entries with property `P` share an owner,
there is one entry with the property at most. -/
theorem countP_le_one (log : List Entry) (P : Entry → Bool)
    (hone : ∀i,(own owner i log).length≤1)
    (hshare : ∀a∈log,∀b∈log,P a=true → P b=true → owner a=owner b) : log.countP P≤1 := by
  by_cases hex : ∃a∈log,P a=true
  · obtain ⟨a,ha,hPa⟩ := hex
    calc
      log.countP P≤log.countP (fun b => owner b==owner a) := by
        apply List.countP_mono_left
        intro b hb hPb
        simpa using hshare b hb a ha hPb hPa
      _ = (own owner (owner a) log).length := List.countP_eq_length_filter
      _ ≤ 1 := hone (owner a)
  · have hz : log.countP P=0 := List.countP_eq_zero.mpr fun a ha hPa => hex ⟨a,ha,hPa⟩
    omega

/-- A list whose entries with a key have distinct keys splits at a key in one way. -/
theorem split_unique {Key : Type*} (key : Entry → Option Key) (k : Key)
    (xs ys : List Entry) (a b : Entry) (us vs : List Entry)
    (hn : ((xs++a::us).filterMap key).Nodup) (h : xs++a::us=ys++b::vs)
    (ha : key a=some k) (hb : key b=some k) : xs=ys := by
  induction xs generalizing ys with
  | nil =>
    cases ys with
    | nil => rfl
    | cons y ys =>
      obtain ⟨rfl,rfl⟩ := List.cons.inj h
      have hmem : k∈(ys++b::vs).filterMap key := List.mem_filterMap.mpr ⟨b,by simp,hb⟩
      rw [List.nil_append,List.filterMap_cons_some ha] at hn
      exact absurd hmem (List.nodup_cons.mp hn).1
  | cons x xs ih =>
    cases ys with
    | nil =>
      obtain ⟨rfl,rfl⟩ := List.cons.inj h
      have hmem : k∈(xs++a::us).filterMap key := List.mem_filterMap.mpr ⟨a,by simp,ha⟩
      rw [List.cons_append,List.filterMap_cons_some hb] at hn
      exact absurd hmem (List.nodup_cons.mp hn).1
    | cons y ys =>
      obtain ⟨rfl,htail⟩ := List.cons.inj h
      have hnt : ((xs++a::us).filterMap key).Nodup := by
        rw [List.cons_append,List.filterMap_cons] at hn
        split at hn
        · exact hn
        · exact (List.nodup_cons.mp hn).2
      rw [ih ys hnt htail]

end Log

end Framework
