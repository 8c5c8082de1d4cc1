import ShareImage.Database.ViewProcessor

namespace ShareImage

variable {Key Leaf : Type} [LinearOrder Key]

namespace FNode

theorem AgreesOff.eq {n m : FNode Key Leaf} (h : AgreesOff ∅ n m) : n=m := by
  apply ext_leaves
  intro q
  exact h q (by simp)

/-- Writing what is there on the other side mends all that is at the path or below it. -/
theorem AgreesOff.mend {paths : Set (List Key)} {n m : FNode Key Leaf} (h : AgreesOff paths n m)
    (p : List Key) : AgreesOff {q∈paths | ¬p<+:q} (n.updateChild p (m.getChild p)) m := by
  intro q hq
  rw [valueAtPath_updateChild_any]
  split
  · rename_i hpq
    obtain ⟨q,rfl⟩ := hpq
    rw [List.drop_left,valueAtPath_getChild]
  · rename_i hpq
    split
    · rename_i habove
      exact (m.value_above p habove.2 q habove.1 (fun hqp => hpq (hqp ▸ List.prefix_refl q))).symm
    · apply h q
      intro a ha haq
      exact hq a ⟨ha,fun hpa => hpq (hpa.trans haq)⟩ haq

theorem AgreesOff.children {paths : Set (List Key)} {p : List Key} {n m : FNode Key Leaf}
    (h : AgreesOff (Set.image (fun q => p++q) paths) n m) :
    AgreesOff paths (n.getChild p) (m.getChild p) := by
  intro r hr
  rw [valueAtPath_getChild,valueAtPath_getChild]
  apply h
  rintro _ ⟨q,hq,rfl⟩ hqr
  exact hr q hq ((List.prefix_append_right_inj p).mp hqr)

/-- Put at the same place, they differ below it alone. -/
theorem AgreesOff.put {paths : Set (List Key)} {n m : FNode Key Leaf} (h : AgreesOff paths n m)
    (p : List Key) :
    AgreesOff (Set.image (fun q => p++q) paths) (emptyNode.updateChild p n)
      (emptyNode.updateChild p m) := by
  have hnone (q : List Key) : (emptyNode : FNode Key Leaf).tree.valueAtPath q=none :=
    FImmutableTree.empty_valueAtPath q
  intro q hq
  rw [valueAtPath_updateChild_any,valueAtPath_updateChild_any]
  split
  · rename_i hpq
    obtain ⟨q,rfl⟩ := hpq
    rw [List.drop_left]
    apply h
    intro a ha haq
    exact hq (p++a) ⟨a,ha,rfl⟩ ((List.prefix_append_right_inj p).mpr haq)
  · simp [hnone]

/-- Data that may be put at the path: no leaf is strictly above it or where there are children. -/
def Fits (branches : Set (List Key)) (p : List Key) (x : FNode Key Leaf) : Prop :=
  Within branches p ∧ x.Shaped branches p

end FNode

def FWriteTree.Fits (branches : Set (List Key)) (t : FWriteTree Key Leaf) : Prop :=
  ∀r∈t.allWrites,∀x∈r.pieces,x.2.Fits branches x.1

namespace FWriteTreeRef

def shown (r : FWriteTreeRef Key Leaf) (n : FNode Key Leaf) : FNode Key Leaf :=
  (r.writeTree.replay (FNode.emptyNode.updateChild r.path n)).getChild r.path

/-- The tree is what the pending writes make, and these fit. -/
structure Ready (branches : Set (List Key)) (r : FWriteTreeRef Key Leaf) : Prop where
  layered : r.writeTree.Layered
  fits : r.writeTree.Fits branches

variable {branches : Set (List Key)} {r : FWriteTreeRef Key Leaf} {n m : FNode Key Leaf}

theorem Ready.openIn (h : r.Ready branches) (hn : n.Shaped branches r.path) :
    r.writeTree.OpenIn (FNode.emptyNode.updateChild r.path n) := by
  have hroot : (FNode.emptyNode.updateChild r.path n).Shaped branches [] :=
    (FNode.shaped_emptyNode branches []).updateChild (by simpa using hn)
  intro record hrecord x hx
  exact hroot.isOpen (by simpa using (h.fits record hrecord x hx).1)

theorem Ready.eventCache (h : r.Ready branches) (hn : n.Shaped branches r.path) :
    r.calculateCompleteEventCache (some n)=some (r.shown n) := by
  have hcache := h.layered.eventCache _ (h.openIn hn) r.path
  rwa [FNode.getChild_updateChild] at hcache

theorem Ready.getChild_shown (h : r.Ready branches) (hn : n.Shaped branches r.path)
    (c : List Key) : (r.shown n).getChild c=(r.writeTree.visibleWrites.applyToNode
      (FNode.emptyNode.updateChild r.path n)).getChild (r.path++c) := by
  rw [h.layered.applyToNode _ (h.openIn hn),shown,FNode.getChild_append]

/-- A write over the whole path is what is shown there. -/
theorem Ready.shadowed (h : r.Ready branches) (hn : n.Shaped branches r.path) (c : List Key)
    (x : FNode Key Leaf) (hx : r.shadowingWriteAtPath c=some x) : (r.shown n).getChild c=x := by
  rw [h.getChild_shown hn]
  exact r.writeTree.visibleWrites.getChild_applyToNode _ x (r.path++c) hx

theorem Ready.applyBelow (h : r.Ready branches) (hn : n.Shaped branches r.path) (c : List Key)
    (hx : r.shadowingWriteAtPath c=none) :
    (r.writeTree.visibleWrites.childCompoundWriteAtPath (r.path++c)).applyToNode (n.getChild c)=
      (r.shown n).getChild c := by
  have hopen := h.layered.openIn (h.openIn hn)
  rw [h.getChild_shown hn,←r.writeTree.visibleWrites.applyToNode_child _ (r.path++c) hopen hx,
    FNode.getChild_updateChild_below]

theorem Ready.serverOverwrite (h : r.Ready branches) (hn : n.Shaped branches r.path)
    (c : List Key) (hx : r.shadowingWriteAtPath c=none) :
    r.calculateEventCacheAfterServerOverwrite c n=some ((r.shown n).getChild c) := by
  have hno : r.writeTree.visibleWrites.hasCompleteWriteAtPath (r.path++c)=false := by
    unfold FCompoundWrite.hasCompleteWriteAtPath
    rw [show r.writeTree.visibleWrites.completeNodeAtPath (r.path++c)=none from hx]
    rfl
  have hbelow := h.applyBelow hn c hx
  unfold calculateEventCacheAfterServerOverwrite
  dsimp only
  rw [if_neg (by simp [hno]),hbelow]
  split
  · rename_i hempty
    rw [←hbelow,FCompoundWrite.applyToNode_isEmpty _ _ hempty]
  · rfl

theorem Ready.completeChild (h : r.Ready branches) (hn : n.Shaped branches r.path) (key : Key) :
    r.calculateCompleteChild key ⟨n,true⟩=some ((r.shown n).getImmediateChild key) := by
  unfold calculateCompleteChild
  split
  · rename_i x hx
    exact congrArg some (h.shadowed hn [key] x hx).symm
  · rename_i hx
    rw [if_pos (by simp [FCacheNode.isCompleteForChild])]
    exact congrArg some (h.applyBelow hn [key] hx)

theorem shown_agreesOff (r : FWriteTreeRef Key Leaf) {paths : Set (List Key)}
    (h : FNode.AgreesOff paths n m) : FNode.AgreesOff paths (r.shown n) (r.shown m) :=
  FNode.AgreesOff.children ((h.put r.path).updateAll _)

end FWriteTreeRef

end ShareImage
