import ShareImage.Database.Layering

namespace ShareImage

open Framework

variable {Key Leaf : Type} [LinearOrder Key]

namespace FCompoundWrite

/-- No leaf of the node lies strictly above a place that is written. -/
def OpenIn (w : FCompoundWrite Key Leaf) (n : FNode Key Leaf) : Prop :=
  ∀r x,w.overlay.read r=some x → n.Open r

theorem valueAtPath_foldl (xs : List (List Key × FNode Key Leaf)) (n : FNode Key Leaf)
    (hxs : xs.Pairwise fun x y => ¬x.1<+:y.1 ∧ ¬y.1<+:x.1) (hopen : ∀x∈xs,n.Open x.1)
    (q : List Key) (hq : ∀x∈xs,¬x.1<+:q) :
    (xs.foldl (fun n x => n.updateChild x.1 x.2) n).tree.valueAtPath q=n.tree.valueAtPath q := by
  induction xs generalizing n with
  | nil => rfl
  | cons x xs ih =>
    obtain ⟨hx,hrest⟩ := List.pairwise_cons.mp hxs
    have hxopen : n.Open x.1 := hopen x List.mem_cons_self
    have hnext (y : List Key × FNode Key Leaf) (hy : y∈xs) : (n.updateChild x.1 x.2).Open y.1 := by
      intro s hs hne
      have hno : ¬x.1<+:s := fun hxs => (hx y hy).1 (hxs.trans hs)
      rw [n.valueAtPath_updateChild x.2 x.1 s hxopen,if_neg hno]
      exact hopen y (List.mem_cons_of_mem x hy) s hs hne
    rw [List.foldl_cons,ih _ hrest hnext fun y hy => hq y (List.mem_cons_of_mem x hy),
      n.valueAtPath_updateChild x.2 x.1 q hxopen,if_neg (hq x List.mem_cons_self)]

/-- Below a write the leaves are those that it writes. -/
theorem applyToNode_covered (w : FCompoundWrite Key Leaf) (n x : FNode Key Leaf) (r q : List Key)
    (hr : w.overlay.read r=some x) (hrq : r<+:q) :
    (w.applyToNode n).tree.valueAtPath q=x.tree.valueAtPath (q.drop r.length) := by
  obtain ⟨q,rfl⟩ := hrq
  have hmem : (r,x)∈w.enumerateWrites := (w.canonical.mem_forEach r x).mpr hr
  rw [←FNode.valueAtPath_getChild,applyToNode_eq,
    getChild_foldl_mem w.enumerateWrites n w.canonical.forEach_apart (r,x) hmem,List.drop_left]

/-- Elsewhere they stay. -/
theorem applyToNode_free (w : FCompoundWrite Key Leaf) (n : FNode Key Leaf) (q : List Key)
    (hopen : w.OpenIn n) (hq : ¬w.overlay.Covers q) :
    (w.applyToNode n).tree.valueAtPath q=n.tree.valueAtPath q := by
  rw [applyToNode_eq]
  apply valueAtPath_foldl w.enumerateWrites n w.canonical.forEach_apart
  · rintro ⟨r,x⟩ hx
    exact hopen r x ((w.canonical.mem_forEach r x).mp hx)
  · rintro ⟨r,x⟩ hx hrq
    exact hq ⟨r,x,hrq,(w.canonical.mem_forEach r x).mp hx⟩

/-- What makes a node the one with the writes applied. -/
theorem applyToNode_unique (w : FCompoundWrite Key Leaf) (n m : FNode Key Leaf)
    (hopen : w.OpenIn n)
    (hcovered : ∀r x q,w.overlay.read r=some x → r<+:q →
      m.tree.valueAtPath q=x.tree.valueAtPath (q.drop r.length))
    (hfree : ∀q,¬w.overlay.Covers q → m.tree.valueAtPath q=n.tree.valueAtPath q) :
    w.applyToNode n=m := by
  apply FNode.ext_leaves
  intro q
  by_cases hq : w.overlay.Covers q
  · obtain ⟨r,x,hrq,hread⟩ := hq
    rw [w.applyToNode_covered n x r q hread hrq,hcovered r x q hread hrq]
  · rw [w.applyToNode_free n q hopen hq,hfree q hq]

theorem OpenIn.addWrite {w : FCompoundWrite Key Leaf} {n : FNode Key Leaf} (h : w.OpenIn n)
    (x : FNode Key Leaf) (p : List Key) (hp : n.Open p) : (w.addWrite x p).OpenIn n := by
  intro r y hr
  rw [overlay_addWrite] at hr
  rcases w.overlay.read_put_some p r x y hr with rfl | ⟨old,hold⟩
  · exact hp
  · exact h r old hold

/-- Applying the writes opens the node no less at a place that none of them covers strictly. -/
theorem OpenIn.applyToNode {w : FCompoundWrite Key Leaf} {n : FNode Key Leaf} (h : w.OpenIn n)
    (p : List Key) (hp : n.Open p) (hfree : ∀s,s<+:p → s≠p → ¬w.overlay.Covers s) :
    (w.applyToNode n).Open p := by
  intro s hs hne
  rw [w.applyToNode_free n s h (hfree s hs hne)]
  exact hp s hs hne

/-- A write into one that is there already. -/
theorem applyToNode_graft (w : FCompoundWrite Key Leaf) (n x v : FNode Key Leaf)
    (r p : List Key) (hopen : w.OpenIn n) (hp : n.Open (r++p)) (hr : w.overlay.read r=some v) :
    (w.addWrite x (r++p)).applyToNode n=(w.applyToNode n).updateChild (r++p) x := by
  have hcovers : w.overlay.Covers (r++p) := ⟨r,v,List.prefix_append r p,hr⟩
  have hroot : (w.applyToNode n).Open r := by
    apply hopen.applyToNode r (hopen r v hr)
    rintro s hs hne ⟨t,y,hts,hread⟩
    have htr := w.overlay.covering_unique r t r y v (hts.trans hs) (List.prefix_refl r) hread hr
    exact hne (hs.eq_of_length (le_antisymm hs.length_le (htr ▸ hts.length_le)))
  have hchild : (w.applyToNode n).getChild r=v := by
    apply FNode.ext_leaves
    intro q
    rw [FNode.valueAtPath_getChild,w.applyToNode_covered n v r _ hr (List.prefix_append r q),
      List.drop_left]
  have hread (q : List Key) : (w.addWrite x (r++p)).overlay.read q=
      if q<+:r++p then (w.overlay.read q).map fun y => y.updateChild ((r++p).drop q.length) x
      else w.overlay.read q := by
    rw [overlay_addWrite,w.overlay.put_covered (r++p) q x hcovers]
    split <;> rfl
  rw [FNode.updateChild_append _ x r p hroot,hchild]
  apply applyToNode_unique _ n _ (hopen.addWrite x (r++p) hp)
  · intro s y q hs hsq
    rw [FNode.valueAtPath_updateChild _ _ r q hroot]
    rw [hread] at hs
    split at hs
    · rename_i hsp
      obtain ⟨old,hold,rfl⟩ := Option.map_eq_some_iff.mp hs
      obtain rfl := w.overlay.covering_unique (r++p) s r old v hsp (List.prefix_append r p) hold hr
      obtain rfl : old=v := Option.some.inj (hold.symm.trans hr)
      rw [if_pos hsq,List.drop_left]
    · rename_i hsp
      have hrq : ¬r<+:q := by
        intro hrq
        obtain rfl := w.overlay.covering_unique q s r y v hsq hrq hs hr
        exact hsp (List.prefix_append s p)
      rw [if_neg hrq,w.applyToNode_covered n y s q hs hsq]
  · intro q hq
    have hfree : ¬w.overlay.Covers q := by
      rintro ⟨s,y,hsq,hs⟩
      apply hq
      by_cases hsp : s<+:r++p
      · exact ⟨s,_,hsq,by rw [hread,if_pos hsp,hs]; rfl⟩
      · exact ⟨s,y,hsq,by rw [hread,if_neg hsp,hs]⟩
    have hrq : ¬r<+:q := fun hrq => hfree ⟨r,v,hrq,hr⟩
    rw [FNode.valueAtPath_updateChild _ _ r q hroot,if_neg hrq,w.applyToNode_free n q hopen hfree]

/-- A write that none covers. -/
theorem applyToNode_lay (w : FCompoundWrite Key Leaf) (n x : FNode Key Leaf) (p : List Key)
    (hopen : w.OpenIn n) (hp : n.Open p) (hcovers : ¬w.overlay.Covers p) :
    (w.addWrite x p).applyToNode n=(w.applyToNode n).updateChild p x := by
  have hroot : (w.applyToNode n).Open p := by
    apply hopen.applyToNode p hp
    rintro s hs _ ⟨t,y,hts,hread⟩
    exact hcovers ⟨t,y,hts.trans hs,hread⟩
  have hread (q : List Key) : (w.addWrite x p).overlay.read q=
      if q=p then some x else if p<+:q then none else w.overlay.read q := by
    rw [overlay_addWrite,w.overlay.put_free p q x hcovers]
    congr
  apply applyToNode_unique _ n _ (hopen.addWrite x p hp)
  · intro s y q hs hsq
    rw [FNode.valueAtPath_updateChild _ _ p q hroot]
    rw [hread] at hs
    split at hs
    · rename_i hsp
      subst hsp
      cases hs
      rw [if_pos hsq]
    · split at hs
      · contradiction
      · rename_i hps
        have hpq : ¬p<+:q := by
          intro hpq
          rcases List.prefix_or_prefix_of_prefix hsq hpq with hsp | hps'
          · exact hcovers ⟨s,y,hsp,hs⟩
          · exact hps hps'
        rw [if_neg hpq,w.applyToNode_covered n y s q hs hsq]
  · intro q hq
    have hpq : ¬p<+:q := fun hpq => hq ⟨p,x,hpq,by rw [hread,if_pos rfl]⟩
    have hfree : ¬w.overlay.Covers q := by
      rintro ⟨s,y,hsq,hs⟩
      have hsp : s≠p := fun hsp => hpq (hsp ▸ hsq)
      have hps : ¬p<+:s := fun hps => hpq (hps.trans hsq)
      exact hq ⟨s,y,hsq,by rw [hread,if_neg hsp,if_neg hps,hs]⟩
    rw [FNode.valueAtPath_updateChild _ _ p q hroot,if_neg hpq,w.applyToNode_free n q hopen hfree]

/-- A write that comes later is applied later. -/
theorem applyToNode_addWrite (w : FCompoundWrite Key Leaf) (n x : FNode Key Leaf) (p : List Key)
    (hopen : w.OpenIn n) (hp : n.Open p) :
    (w.addWrite x p).applyToNode n=(w.applyToNode n).updateChild p x := by
  by_cases hcovers : w.overlay.Covers p
  · obtain ⟨r,v,⟨p,rfl⟩,hr⟩ := hcovers
    exact w.applyToNode_graft n x v r p hopen hp hr
  · exact w.applyToNode_lay n x p hopen hp hcovers

theorem openIn_emptyWrite (n : FNode Key Leaf) : (emptyWrite : FCompoundWrite Key Leaf).OpenIn n := by
  intro r x hr
  rw [overlay_emptyWrite] at hr
  contradiction

/-- Writes merged into one are applied as they are one by one. -/
theorem applyToNode_addWrites (w : FCompoundWrite Key Leaf) (n : FNode Key Leaf)
    (writes : List (List Key × FNode Key Leaf)) (hopen : w.OpenIn n)
    (hwrites : ∀x∈writes,n.Open x.1) :
    (writes.foldl (fun w x => w.addWrite x.2 x.1) w).applyToNode n=
      writes.foldl (fun n x => n.updateChild x.1 x.2) (w.applyToNode n) := by
  induction writes generalizing w with
  | nil => rfl
  | cons x writes ih =>
    have hx : n.Open x.1 := hwrites x List.mem_cons_self
    rw [List.foldl_cons,List.foldl_cons,ih _ (hopen.addWrite x.2 x.1 hx)
      fun y hy => hwrites y (List.mem_cons_of_mem x hy),w.applyToNode_addWrite n x.2 x.1 hopen hx]

theorem read_childCompoundWrite (w : FCompoundWrite Key Leaf) (p q : List Key)
    (hnone : w.completeNodeAtPath p=none) :
    (w.childCompoundWriteAtPath p).overlay.read q=w.overlay.read (p++q) := by
  cases p with
  | nil => rfl
  | cons k p =>
    simp only [childCompoundWriteAtPath,hnone]
    exact w.writeTree.valueAtPath_subtreeAtPath (k::p) q

theorem not_covers_of_incomplete (w : FCompoundWrite Key Leaf) (p : List Key)
    (hnone : w.completeNodeAtPath p=none) : ¬w.overlay.Covers p :=
  w.not_covers_of_findRootMost p (Option.map_eq_none_iff.mp hnone)

theorem incomplete_child (w : FCompoundWrite Key Leaf) (p : List Key)
    (hnone : w.completeNodeAtPath p=none) :
    (w.childCompoundWriteAtPath p).hasCompleteWriteAtPath []=false := by
  unfold hasCompleteWriteAtPath
  cases hroot : (w.childCompoundWriteAtPath p).completeNodeAtPath [] with
  | none => rfl
  | some x =>
    obtain ⟨⟨r,y⟩,hfind,_⟩ := Option.map_eq_some_iff.mp hroot
    obtain ⟨hr,hread,_⟩ := covers_of_findRootMost _ [] r y hfind
    obtain rfl := List.prefix_nil.mp hr
    rw [w.read_childCompoundWrite p [] hnone,List.append_nil] at hread
    exact absurd ⟨p,y,List.prefix_refl p,hread⟩ (w.not_covers_of_incomplete p hnone)

/-- The writes below a path, applied to the child there. -/
theorem applyToNode_child (w : FCompoundWrite Key Leaf) (n : FNode Key Leaf) (p : List Key)
    (hopen : w.OpenIn n) (hnone : w.completeNodeAtPath p=none) :
    (w.childCompoundWriteAtPath p).applyToNode (n.getChild p)=(w.applyToNode n).getChild p := by
  have hread := fun q => w.read_childCompoundWrite p q hnone
  apply applyToNode_unique
  · intro r x hr
    rw [hread] at hr
    exact FNode.Open.getChild (hopen (p++r) x hr)
  · intro r x q hr hrq
    rw [hread] at hr
    obtain ⟨s,rfl⟩ := hrq
    rw [FNode.valueAtPath_getChild,←List.append_assoc,
      w.applyToNode_covered n x (p++r) (p++r++s) hr (List.prefix_append (p++r) s),
      List.drop_left,List.drop_left]
  · intro q hq
    rw [FNode.valueAtPath_getChild,FNode.valueAtPath_getChild,w.applyToNode_free n (p++q) hopen]
    rintro ⟨s,x,hs,hsx⟩
    rcases List.prefix_or_prefix_of_prefix hs (List.prefix_append p q) with hsp | ⟨r,rfl⟩
    · exact w.not_covers_of_incomplete p hnone ⟨s,x,hsp,hsx⟩
    · exact hq ⟨r,x,(List.prefix_append_right_inj p).mp hs,by rw [hread]; exact hsx⟩

theorem applyToNode_isEmpty (w : FCompoundWrite Key Leaf) (n : FNode Key Leaf)
    (h : w.isEmpty=true) : w.applyToNode n=n := by
  have hempty : w=emptyWrite := by
    ext1
    exact w.writeTree.eq_empty_of_isEmpty h
  rw [hempty]
  rfl

end FCompoundWrite

namespace FWriteTree

/-- The pending writes made one by one, oldest first. -/
def replay (t : FWriteTree Key Leaf) (n : FNode Key Leaf) : FNode Key Leaf :=
  (t.allWrites.flatMap FWriteRecord.pieces).foldl (fun n x => n.updateChild x.1 x.2) n

/-- No leaf of the node lies strictly above a place that a pending write is for. -/
def OpenIn (t : FWriteTree Key Leaf) (n : FNode Key Leaf) : Prop :=
  ∀r∈t.allWrites,∀x∈r.pieces,n.Open x.1

theorem layerTree_addWrites (writes : List (FWriteRecord Key Leaf)) :
    layerTreeFromWrites writes defaultFilter []=
      (writes.flatMap FWriteRecord.pieces).foldl (fun w x => w.addWrite x.2 x.1) .emptyWrite := by
  apply FCompoundWrite.overlay_injective
  rw [overlay_layerTree,FCompoundWrite.overlay_addWrites,FCompoundWrite.overlay_emptyWrite]

theorem Layered.openIn {t : FWriteTree Key Leaf} (h : t.Layered) {n : FNode Key Leaf}
    (hn : t.OpenIn n) : t.visibleWrites.OpenIn n := by
  intro r x hr
  rw [h,overlay_layerTree] at hr
  obtain ⟨y,hy,rfl⟩ := Overlay.read_layer _ r x hr
  obtain ⟨record,hrecord,hyr⟩ := List.mem_flatMap.mp hy
  exact hn record hrecord y hyr

theorem Layered.applyToNode {t : FWriteTree Key Leaf} (h : t.Layered) (n : FNode Key Leaf)
    (hn : t.OpenIn n) : t.visibleWrites.applyToNode n=t.replay n := by
  rw [h,layerTree_addWrites]
  apply FCompoundWrite.applyToNode_addWrites _ n _ (FCompoundWrite.openIn_emptyWrite n)
  intro x hx
  obtain ⟨record,hrecord,hxr⟩ := List.mem_flatMap.mp hx
  exact hn record hrecord x hxr

/-- What is read over the server's data is what the pending writes leave there. -/
theorem Layered.eventCache {t : FWriteTree Key Leaf} (h : t.Layered) (n : FNode Key Leaf)
    (hn : t.OpenIn n) (path : List Key) :
    t.calculateCompleteEventCacheAtPath path (some (n.getChild path)) none false=
      some ((t.replay n).getChild path) := by
  rw [←h.applyToNode n hn]
  simp only [calculateCompleteEventCacheAtPath,and_self,if_true]
  cases hcomplete : t.visibleWrites.completeNodeAtPath path with
  | some x => exact congrArg some (t.visibleWrites.getChild_applyToNode n x path hcomplete).symm
  | none =>
    have hchild := t.visibleWrites.applyToNode_child n path (h.openIn hn) hcomplete
    simp only [reduceCtorEq,false_and,if_false,Option.getD_some,hchild]
    split
    · rename_i hempty
      rw [←hchild,FCompoundWrite.applyToNode_isEmpty _ _ hempty]
    · rfl

/-- Without data of the server, what is read is complete only where the pending writes leave the
same over all data. -/
theorem Layered.eventCache_unknown {t : FWriteTree Key Leaf} (h : t.Layered) (n x : FNode Key Leaf)
    (hn : t.OpenIn n) (path : List Key)
    (hx : t.calculateCompleteEventCacheAtPath path none none false=some x) :
    (t.replay n).getChild path=x := by
  rw [←h.applyToNode n hn]
  simp only [calculateCompleteEventCacheAtPath,and_self,if_true] at hx
  cases hcomplete : t.visibleWrites.completeNodeAtPath path with
  | some y =>
    rw [hcomplete] at hx
    cases hx
    exact t.visibleWrites.getChild_applyToNode n x path hcomplete
  | none =>
    exfalso
    have hroot := t.visibleWrites.incomplete_child path hcomplete
    simp only [hcomplete,hroot,and_self,if_true] at hx
    split at hx <;> contradiction

/-- When each answered write can go, what is read at a path is what the pending writes leave there
when they are made one by one over the server's data, and where it is read without these data, the
data make no difference. -/
theorem event_cache_replays (es : List (Event Key Leaf)) (t : FWriteTree Key Leaf)
    (h : machine.run {} es=some t) (hes : machine.Meets Answerable {} es) (n : FNode Key Leaf)
    (hn : t.OpenIn n) (path : List Key) :
    t.calculateCompleteEventCacheAtPath path (some (n.getChild path)) none false=
        some ((t.replay n).getChild path) ∧
      ∀x,t.calculateCompleteEventCacheAtPath path none none false=some x →
        (t.replay n).getChild path=x := by
  have hlayered : t.Layered := run_layered es t h hes
  exact ⟨hlayered.eventCache n hn path,fun x hx => hlayered.eventCache_unknown n x hn path hx⟩

theorem event_cache_replays_twoUsers :
    ∃t,machine.run {} twoUsers=some t ∧
      t.calculateCompleteEventCacheAtPath ["users","b"] none none false=some (.leaf "ben") ∧
      (t.replay (FNode.emptyNode.updateChild ["users","c"] (.leaf "cid"))).getChild ["users","b"]=
        .leaf "ben" := by
  refine ⟨_,rfl,rfl,?_⟩
  have hopen : ((machine.run {} twoUsers).getD {}).OpenIn
      (FNode.emptyNode.updateChild ["users","c"] (.leaf "cid")) := by
    unfold OpenIn
    decide
  exact (event_cache_replays twoUsers _ rfl (by decide) _ hopen ["users","b"]).2 _ rfl

end FWriteTree

end ShareImage
