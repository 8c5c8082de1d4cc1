import ShareImage.Database.Node
import Mathlib.Data.Set.Basic

namespace ShareImage.FNode

variable {Key Leaf : Type} [LinearOrder Key]

theorem getChild_empty (n : FNode Key Leaf) (h : n.isEmpty=true) (p : List Key) :
    n.getChild p=emptyNode := by
  rw [n.eq_emptyNode h,getChild_emptyNode]

theorem isEmpty_of_getChild (n : FNode Key Leaf) (p : List Key)
    (h : (n.getChild p).isEmpty=false) : n.isEmpty=false := by
  cases hn : n.isEmpty with
  | false => rfl
  | true =>
    rw [n.getChild_empty hn] at h
    contradiction

theorem isEmpty_updateChild (n x : FNode Key Leaf) (p : List Key) (h : x.isEmpty=false) :
    (n.updateChild p x).isEmpty=false :=
  isEmpty_of_getChild _ p (by rw [getChild_updateChild,h])

theorem value_of_not_leaf (n : FNode Key Leaf) (h : n.isLeafNode=false) : n.tree.value=none := by
  simpa [isLeafNode] using h

theorem value_updateImmediateChild (n x : FNode Key Leaf) (k : Key) :
    (n.updateImmediateChild k x).tree.value=if x.isEmpty then n.tree.value else none := by
  unfold updateImmediateChild
  split
  · split
    · rfl
    · rename_i hleaf
      exact (n.value_of_not_leaf ((Bool.not_eq_true _).mp hleaf)).symm
  · rfl

/-- A leaf above gives way to what is written below it, unless that is empty. -/
theorem valueAtPath_updateChild_any (n x : FNode Key Leaf) (p q : List Key) :
    (n.updateChild p x).tree.valueAtPath q=
      if p<+:q then x.tree.valueAtPath (q.drop p.length)
      else if q<+:p ∧ x.isEmpty=false then none else n.tree.valueAtPath q := by
  by_cases hpq : p<+:q
  · rw [if_pos hpq]
    obtain ⟨q,rfl⟩ := hpq
    rw [←valueAtPath_getChild,getChild_updateChild,List.drop_left]
  rw [if_neg hpq]
  induction p generalizing n q with
  | nil => exact absurd List.nil_prefix hpq
  | cons k p ih =>
    by_cases hkept : (n.isLeafNode && x.isEmpty)=true
    · obtain ⟨_,hempty⟩ := (Bool.and_eq_true ..).mp hkept
      rw [updateChild,if_pos hkept,if_neg (by simp [hempty])]
    rw [updateChild,if_neg hkept]
    cases q with
    | nil =>
      rw [FImmutableTree.valueAtPath_nil,FImmutableTree.valueAtPath_nil,value_updateImmediateChild]
      cases hx : x.isEmpty with
      | false => simp [isEmpty_updateChild _ x p hx]
      | true =>
        have hleaf : n.isLeafNode=false := by simpa [hx] using hkept
        simp [n.value_of_not_leaf hleaf]
    | cons j q =>
      have hchild := congrArg (fun m => m.tree.valueAtPath q)
        (n.getImmediateChild_updateImmediateChild ((n.getImmediateChild k).updateChild p x) j k)
      rw [FImmutableTree.valueAtPath_cons,FImmutableTree.valueAtPath_cons]
      refine hchild.trans ?_
      by_cases hj : j=k
      · subst hj
        rw [if_pos rfl,ih (n.getImmediateChild j) q (by simpa using hpq)]
        simp [getImmediateChild]
      · simp [hj,getImmediateChild]

/-- Above a leaf there is none. -/
theorem value_above (n : FNode Key Leaf) (p : List Key) (h : (n.getChild p).isEmpty=false)
    (q : List Key) (hq : q<+:p) (hne : q≠p) : n.tree.valueAtPath q=none := by
  cases hleaf : n.tree.valueAtPath q with
  | none => rfl
  | some leaf =>
    have hnone : n.getChild p=emptyNode := by
      apply ext_leaves
      intro r
      have hqr : p++r≠q := by
        rintro rfl
        exact hne (hq.eq_of_length (le_antisymm hq.length_le (by simp)))
      rw [valueAtPath_getChild,n.canonical.apart q (p++r) leaf hleaf
        (hq.trans (List.prefix_append p r)) hqr]
      exact (FImmutableTree.empty_valueAtPath r).symm
    rw [hnone] at h
    contradiction

/-- Writing what is there changes nothing. -/
@[simp] theorem updateChild_getChild (n : FNode Key Leaf) (p : List Key) :
    n.updateChild p (n.getChild p)=n := by
  apply ext_leaves
  intro q
  rw [valueAtPath_updateChild_any]
  split
  · rename_i hpq
    obtain ⟨q,rfl⟩ := hpq
    rw [List.drop_left,valueAtPath_getChild]
  · split
    · rename_i hpq habove
      exact (n.value_above p habove.2 q habove.1 (fun hqp => hpq (hqp ▸ List.prefix_refl q))).symm
    · rfl

theorem getChild_updateChild_below (n x : FNode Key Leaf) (p q : List Key) :
    (n.updateChild p x).getChild (p++q)=x.getChild q := by
  rw [getChild_append,getChild_updateChild]

theorem getChild_updateChild_above (n x : FNode Key Leaf) (p q : List Key) :
    (n.updateChild (p++q) x).getChild p=(n.getChild p).updateChild q x := by
  apply ext_leaves
  intro r
  rw [valueAtPath_getChild,valueAtPath_updateChild_any,valueAtPath_updateChild_any,
    valueAtPath_getChild]
  simp [List.prefix_append_right_inj]

/-- The nodes are the same but for what is at the paths and below them. -/
def AgreesOff (paths : Set (List Key)) (n m : FNode Key Leaf) : Prop :=
  ∀q,(∀p∈paths,¬p<+:q) → n.tree.valueAtPath q=m.tree.valueAtPath q

theorem AgreesOff.refl (paths : Set (List Key)) (n : FNode Key Leaf) : AgreesOff paths n n :=
  fun _ _ => rfl

theorem AgreesOff.symm {paths : Set (List Key)} {n m : FNode Key Leaf} (h : AgreesOff paths n m) :
    AgreesOff paths m n := fun q hq => (h q hq).symm

theorem AgreesOff.trans {paths : Set (List Key)} {n m u : FNode Key Leaf}
    (h : AgreesOff paths n m) (hu : AgreesOff paths m u) : AgreesOff paths n u :=
  fun q hq => (h q hq).trans (hu q hq)

/-- They stay so under the same update. -/
theorem AgreesOff.updateChild {paths : Set (List Key)} {n m : FNode Key Leaf}
    (h : AgreesOff paths n m) (p : List Key) (x : FNode Key Leaf) :
    AgreesOff paths (n.updateChild p x) (m.updateChild p x) := by
  intro q hq
  rw [valueAtPath_updateChild_any,valueAtPath_updateChild_any,h q hq]

theorem agreesOff_updateChild {n : FNode Key Leaf} {p : List Key} (x : FNode Key Leaf)
    (h : n.Open p) (paths : Set (List Key)) (hp : ∃s∈paths,s<+:p) :
    AgreesOff paths n (n.updateChild p x) := by
  intro q hq
  obtain ⟨s,hs,hsp⟩ := hp
  rw [valueAtPath_updateChild n x p q h,if_neg fun hpq => hq s hs (hsp.trans hpq)]

theorem AgreesOff.mono {paths more : Set (List Key)} {n m : FNode Key Leaf}
    (h : AgreesOff paths n m) (hmore : ∀p∈paths,∃s∈more,s<+:p) : AgreesOff more n m := by
  intro q hq
  apply h q
  intro p hp hpq
  obtain ⟨s,hs,hsp⟩ := hmore p hp
  exact hq s hs (hsp.trans hpq)

/-- What is there after an update depends on what was there, or on the update alone. -/
theorem getChild_updateChild_congr (n m x : FNode Key Leaf) (r p : List Key)
    (h : r<+:p ∨ n.getChild p=m.getChild p) :
    (n.updateChild r x).getChild p=(m.updateChild r x).getChild p := by
  by_cases hrp : r<+:p
  · obtain ⟨q,rfl⟩ := hrp
    rw [getChild_updateChild_below,getChild_updateChild_below]
  · have hsame := h.resolve_left hrp
    by_cases hpr : p<+:r
    · obtain ⟨q,rfl⟩ := hpr
      rw [getChild_updateChild_above,getChild_updateChild_above,hsame]
    · rw [getChild_updateChild_apart n x r p hrp hpr,getChild_updateChild_apart m x r p hrp hpr,hsame]

/-- Updates one after the other. -/
def updateAll (n : FNode Key Leaf) (ws : List (List Key × FNode Key Leaf)) : FNode Key Leaf :=
  ws.foldl (fun n x => n.updateChild x.1 x.2) n

theorem updateAll_append (n : FNode Key Leaf) (xs ys : List (List Key × FNode Key Leaf)) :
    n.updateAll (xs++ys)=(n.updateAll xs).updateAll ys := List.foldl_append ..

theorem AgreesOff.updateAll {paths : Set (List Key)} {n m : FNode Key Leaf}
    (h : AgreesOff paths n m) (ws : List (List Key × FNode Key Leaf)) :
    AgreesOff paths (n.updateAll ws) (m.updateAll ws) := by
  induction ws generalizing n m with
  | nil => exact h
  | cons w ws ih => exact ih (h.updateChild w.1 w.2)

/-- Updates at the paths or below them change nothing elsewhere, where no leaf lies above. -/
theorem agreesOff_updateAll (paths : Set (List Key)) (n : FNode Key Leaf)
    (ws : List (List Key × FNode Key Leaf)) (hws : ∀w∈ws,∃s∈paths,s<+:w.1)
    (h : ∀s∈paths,n.Open s) : AgreesOff paths n (n.updateAll ws) := by
  have hout (s q : List Key) (hs : s∈paths) (hq : q<+:s) (hoff : ∀p∈paths,¬p<+:q) :
      n.tree.valueAtPath q=none :=
    h s hs q hq fun hqs => hoff s hs (hqs ▸ List.prefix_refl q)
  clear h
  induction ws generalizing n with
  | nil => exact AgreesOff.refl paths n
  | cons w ws ih =>
    have hstep : AgreesOff paths n (n.updateChild w.1 w.2) := by
      intro q hq
      obtain ⟨s,hs,hsw⟩ := hws w List.mem_cons_self
      rw [valueAtPath_updateChild_any,if_neg fun hwq => hq s hs (hsw.trans hwq)]
      split
      · rename_i habove
        have hqs : q<+:s := (List.prefix_or_prefix_of_prefix hsw habove.1).resolve_left (hq s hs)
        exact hout s q hs hqs hq
      · rfl
    apply hstep.trans
    apply ih _ fun x hx => hws x (List.mem_cons_of_mem w hx)
    intro s q hs hqs hoff
    rw [←hstep q hoff]
    exact hout s q hs hqs hoff

/-- Under a write that covers the path it does not matter what was there before. -/
theorem getChild_updateAll_covered (n m : FNode Key Leaf) (ws : List (List Key × FNode Key Leaf))
    (p : List Key) (h : (∃w∈ws,w.1<+:p) ∨ n.getChild p=m.getChild p) :
    (n.updateAll ws).getChild p=(m.updateAll ws).getChild p := by
  induction ws generalizing n m with
  | nil => exact h.resolve_left (by simp)
  | cons w ws ih =>
    apply ih
    by_cases hw : w.1<+:p
    · exact .inr (getChild_updateChild_congr n m w.2 w.1 p (.inl hw))
    · rcases h with ⟨x,hx,hxp⟩ | hsame
      · rcases List.mem_cons.mp hx with rfl | hx
        · exact absurd hxp hw
        · exact .inl ⟨x,hx,hxp⟩
      · exact .inr (getChild_updateChild_congr n m w.2 w.1 p (.inr hsame))

/-- At the places below `p` that hold children alone, there is no leaf. -/
def Shaped (branches : Set (List Key)) (p : List Key) (n : FNode Key Leaf) : Prop :=
  ∀q,p++q∈branches → n.tree.valueAtPath q=none

/-- All places above the path hold children alone. -/
def Within (branches : Set (List Key)) (p : List Key) : Prop := ∀s,s<+:p → s≠p → s∈branches

theorem shaped_emptyNode (branches : Set (List Key)) (p : List Key) :
    (emptyNode : FNode Key Leaf).Shaped branches p :=
  fun q _ => FImmutableTree.empty_valueAtPath q

theorem Shaped.isOpen {branches : Set (List Key)} {p c : List Key} {n : FNode Key Leaf}
    (h : n.Shaped branches p) (hc : Within branches (p++c)) : n.Open c := by
  intro s hs hne
  exact h s (hc (p++s) ((List.prefix_append_right_inj p).mpr hs) (by simpa using hne))

theorem Shaped.getChild {branches : Set (List Key)} {p c : List Key} {n : FNode Key Leaf}
    (h : n.Shaped branches p) : (n.getChild c).Shaped branches (p++c) := by
  intro q hq
  rw [valueAtPath_getChild]
  exact h (c++q) (by rwa [←List.append_assoc])

theorem Shaped.updateChild {branches : Set (List Key)} {p c : List Key} {n x : FNode Key Leaf}
    (h : n.Shaped branches p) (hx : x.Shaped branches (p++c)) :
    (n.updateChild c x).Shaped branches p := by
  intro q hq
  rw [valueAtPath_updateChild_any]
  split
  · rename_i hcq
    obtain ⟨q,rfl⟩ := hcq
    rw [List.drop_left]
    exact hx q (by rwa [List.append_assoc])
  · split
    · rfl
    · exact h q hq

end ShareImage.FNode
