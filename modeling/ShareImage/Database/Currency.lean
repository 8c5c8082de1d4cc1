import ShareImage.Database.Fitting
import Mathlib.Data.Set.Insert

namespace ShareImage

open Framework

variable {Key Leaf : Type} [LinearOrder Key]

namespace FIndexedFilter

variable [DecidableEq Leaf]

theorem updateChildIn_below (node x : FNode Key Leaf) (key : Key) (path : List Key) :
    (updateChildIn node key ((node.getImmediateChild key).updateChild path x) path).1=
      node.updateChild (key::path) x := by
  rw [updateChildIn_node,FNode.updateChild_child]
  intro hsame
  rw [FNode.getChild_updateChild] at hsame
  rw [←hsame,FNode.updateChild_getChild]

end FIndexedFilter

namespace FViewProcessor

theorem each_fst {α : Type}
    (f : FViewCache Key Leaf → α → FViewCache Key Leaf × List (Key × FChange Key Leaf))
    (xs : List α) (v : FViewCache Key Leaf) :
    (each f xs v).1=xs.foldl (fun v x => (f v x).1) v := by
  have hfold (r : FViewCache Key Leaf × List (Key × FChange Key Leaf)) :
      (xs.foldl (fun r x => ((f r.1 x).1,r.2++(f r.1 x).2)) r).1=
        xs.foldl (fun v x => (f v x).1) r.1 := by
    induction xs generalizing r with
    | nil => rfl
    | cons x xs ih => exact ih _
  exact hfold (v,[])

/-- The view has all of the server's data and shows what it is to show of them, but for what is at
the paths and below them; and what a write covers it shows everywhere. -/
structure Current (branches : Set (List Key)) (r : FWriteTreeRef Key Leaf) (n : FNode Key Leaf)
    (paths : Set (List Key)) (v : FViewCache Key Leaf) : Prop where
  server : v.cachedServerSnap=⟨n,true⟩
  shaped : n.Shaped branches r.path
  full : v.cachedEventSnap.isFullyInitialized=true
  event : v.cachedEventSnap.node.AgreesOff paths (r.shown n)
  covered : ∀c,(r.shadowingWriteAtPath c).isSome=true →
    v.cachedEventSnap.node.getChild c=(r.shown n).getChild c

variable {branches : Set (List Key)} {r : FWriteTreeRef Key Leaf} {n : FNode Key Leaf}
  {paths : Set (List Key)} {v : FViewCache Key Leaf}

theorem Current.serverFull (h : Current branches r n paths v) :
    v.cachedServerSnap.isFullyInitialized=true := by
  rw [h.server]

theorem Current.serverNode (h : Current branches r n paths v) : v.cachedServerSnap.node=n := by
  rw [h.server]

theorem Current.completeServerSnap (h : Current branches r n paths v) :
    v.completeServerSnap=some n := by
  rw [FViewCache.completeServerSnap,h.server,if_pos rfl]

theorem Current.updateServerSnap (h : Current branches r n paths v) :
    v.updateServerSnap n true=v := by
  cases v with
  | mk event server =>
    have hserver : server=⟨n,true⟩ := h.server
    rw [hserver]
    rfl

theorem Current.eq (h : Current branches r n ∅ v) : v.cachedEventSnap=⟨r.shown n,true⟩ := by
  have hfull := h.full
  have hnode := h.event.eq
  cases hsnap : v.cachedEventSnap with
  | mk node full =>
    rw [hsnap] at hfull hnode
    rw [show full=true from hfull,show node=_ from hnode]

theorem Current.of_eq (hserver : v.cachedServerSnap=⟨n,true⟩) (hshaped : n.Shaped branches r.path)
    (h : v.cachedEventSnap=⟨r.shown n,true⟩) : Current branches r n paths v := by
  refine ⟨hserver,hshaped,by rw [h],?_,?_⟩
  · rw [h]
    exact FNode.AgreesOff.refl paths _
  · intro c _
    rw [h]

theorem Current.mono {more : Set (List Key)} (h : Current branches r n paths v)
    (hmore : ∀p∈paths,∃s∈more,s<+:p) : Current branches r n more v :=
  ⟨h.server,h.shaped,h.full,h.event.mono hmore,h.covered⟩

/-- Nothing is left to mend. -/
theorem Current.done (h : Current branches r n paths v) (hpaths : ∀p,p∉paths) :
    Current branches r n ∅ v :=
  h.mono fun p hp => absurd hp (hpaths p)

/-- Writing what is to be shown at a path mends what is below it. -/
theorem Current.mend (h : Current branches r n paths v) (c : List Key) :
    Current branches r n {q∈paths | ¬c<+:q} (v.updateEventSnap
      (v.cachedEventSnap.node.updateChild c ((r.shown n).getChild c)) true) := by
  refine ⟨h.server,h.shaped,rfl,h.event.mend c,?_⟩
  intro q hq
  have hsame := FNode.getChild_updateChild_congr v.cachedEventSnap.node (r.shown n)
    ((r.shown n).getChild c) c q (.inr (h.covered q hq))
  rwa [FNode.updateChild_getChild] at hsame

theorem updateEventSnap_same (v : FViewCache Key Leaf)
    (hfull : v.cachedEventSnap.isFullyInitialized=true) :
    v.updateEventSnap v.cachedEventSnap.node true=v := by
  cases v with
  | mk event server =>
    cases event with
    | mk node full =>
      cases hfull
      rfl

theorem Current.shadowed (h : Current branches r n paths v) (c : List Key)
    (hc : (r.shadowingWriteAtPath c).isSome=true) : Current branches r n {q∈paths | ¬c<+:q} v := by
  have hmend := h.mend c
  rwa [←h.covered c hc,FNode.updateChild_getChild,updateEventSnap_same v h.full] at hmend

variable [DecidableEq Leaf]

theorem Current.generate (h : Current branches r n paths v) (hr : r.Ready branches) (c : List Key) :
    Current branches r n {q∈paths | ¬c<+:q} (generateEventCacheAfterServerEvent r v c).1 := by
  cases hc : r.shadowingWriteAtPath c with
  | some x =>
    have hsame : (generateEventCacheAfterServerEvent r v c).1=v := by
      unfold generateEventCacheAfterServerEvent
      simp [hc]
    rw [hsame]
    exact h.shadowed c (by rw [hc]; rfl)
  | none =>
    have hmend := h.mend c
    unfold generateEventCacheAfterServerEvent
    dsimp only
    rw [if_neg (by simp [hc])]
    cases c with
    | nil =>
      dsimp only
      rw [h.completeServerSnap,hr.eventCache h.shaped]
      exact hmend
    | cons key rest =>
      have hnew : newEventChild r v key rest=
          some ((v.cachedEventSnap.node.getImmediateChild key).updateChild rest
            ((r.shown n).getChild (key::rest))) := by
        unfold newEventChild
        dsimp only
        rw [if_pos (by simp [FCacheNode.isCompleteForChild,h.full]),h.serverNode,
          hr.serverOverwrite h.shaped (key::rest) hc]
      dsimp only
      rw [hnew,h.full]
      dsimp only
      rw [FIndexedFilter.updateChildIn_below]
      exact hmend

theorem applyServerOverwriteTo_full (r : FWriteTreeRef Key Leaf) (v : FViewCache Key Leaf)
    (hserver : v.cachedServerSnap=⟨n,true⟩) (c : List Key) (x : FNode Key Leaf) :
    (applyServerOverwriteTo r v c x).1=
      (generateEventCacheAfterServerEvent r (v.updateServerSnap (n.updateChild c x) true) c).1 := by
  unfold applyServerOverwriteTo
  cases c with
  | nil => rfl
  | cons key rest =>
    dsimp only
    rw [hserver,if_neg (by simp [FCacheNode.isCompleteForPath,FCacheNode.isCompleteForChild]),
      FIndexedFilter.updateChildIn_below]

/-- New data of the server at a path, with what was to be mended below it. -/
theorem Current.serverOverwrite (h : Current branches r n paths v) (hr : r.Ready branches)
    (c : List Key) (x : FNode Key Leaf) (hx : x.Fits branches (r.path++c)) :
    Current branches r (n.updateChild c x) {q∈paths | ¬c<+:q}
      (applyServerOverwriteTo r v c x).1 := by
  have hshaped : (n.updateChild c x).Shaped branches r.path := h.shaped.updateChild hx.2
  have hnext : Current branches r (n.updateChild c x) (insert c paths)
      (v.updateServerSnap (n.updateChild c x) true) := by
    have hchange : FNode.AgreesOff {c} (r.shown n) (r.shown (n.updateChild c x)) :=
      r.shown_agreesOff (FNode.agreesOff_updateChild x (h.shaped.isOpen hx.1) {c}
        ⟨c,rfl,List.prefix_refl c⟩)
    refine ⟨rfl,hshaped,h.full,?_,?_⟩
    · apply (h.event.mono fun p hp => ⟨p,Set.mem_insert_of_mem c hp,List.prefix_refl p⟩).trans
      exact hchange.mono fun p hp => ⟨c,Set.mem_insert c paths,hp ▸ List.prefix_refl c⟩
    · intro q hq
      obtain ⟨y,hy⟩ := Option.isSome_iff_exists.mp hq
      exact (h.covered q hq).trans
        ((hr.shadowed h.shaped q y hy).trans (hr.shadowed hshaped q y hy).symm)
  rw [applyServerOverwriteTo_full r v h.server]
  apply (hnext.generate hr c).mono
  rintro p ⟨hp,hcp⟩
  rcases Set.mem_insert_iff.mp hp with rfl | hp
  · exact absurd (List.prefix_refl p) hcp
  · exact ⟨p,⟨hp,hcp⟩,List.prefix_refl p⟩

/-- What the server has at a path is put in again. -/
theorem Current.refresh (h : Current branches r n paths v) (hr : r.Ready branches) (c : List Key) :
    Current branches r n {q∈paths | ¬c<+:q} (applyServerOverwriteTo r v c (n.getChild c)).1 := by
  rw [applyServerOverwriteTo_full r v h.server,FNode.updateChild_getChild,h.updateServerSnap]
  exact h.generate hr c

/-- A merge goes through all children that it changes, those that are there first. -/
theorem applyServerMergeTo_full (r : FWriteTreeRef Key Leaf) (v : FViewCache Key Leaf)
    (hserver : v.cachedServerSnap=⟨n,true⟩) (c : List Key) (w : FCompoundWrite Key Leaf) :
    ∃xs : List (Key × FCompoundWrite Key Leaf),
      (∀x,x∈xs ↔ x∈(w.laid c).childCompoundWrites) ∧
      (applyServerMergeTo r v c w).1=xs.foldl (fun u x =>
        (applyServerOverwriteTo r u [x.1] (x.2.applyToNode (n.getImmediateChild x.1))).1) v := by
  unfold applyServerMergeTo
  dsimp only
  rw [hserver,if_neg (by simp),each_fst]
  refine ⟨_,?_,rfl⟩
  intro x
  simp only [List.mem_append,List.mem_filter,FCacheNode.isCompleteForChild,FCompoundWrite.laid]
  cases n.hasChild x.1 <;> simp

/-- One child after the other, with writes of what the server has there. -/
theorem Current.refreshAll (h : Current branches r n paths v) (hr : r.Ready branches)
    (xs : List (Key × FCompoundWrite Key Leaf))
    (hxs : ∀x∈xs,x.2.applyToNode (n.getImmediateChild x.1)=n.getImmediateChild x.1) :
    Current branches r n {q∈paths | ∀x∈xs,¬[x.1]<+:q} (xs.foldl (fun u x =>
      (applyServerOverwriteTo r u [x.1] (x.2.applyToNode (n.getImmediateChild x.1))).1) v) := by
  induction xs generalizing v paths with
  | nil => exact h.mono fun p hp => ⟨p,⟨hp,by simp⟩,List.prefix_refl p⟩
  | cons x xs ih =>
    have hstep := h.refresh hr [x.1]
    rw [List.foldl_cons,hxs x List.mem_cons_self]
    refine (ih hstep fun y hy => hxs y (List.mem_cons_of_mem x hy)).mono ?_
    rintro p ⟨⟨hp,hxp⟩,hrest⟩
    refine ⟨p,⟨hp,?_⟩,List.prefix_refl p⟩
    intro y hy
    rcases List.mem_cons.mp hy with rfl | hy
    · exact hxp
    · exact hrest y hy

/-- One child after the other, each made what it is in the merged node. -/
theorem Current.serverOverwrites {m : FNode Key Leaf} (h : Current branches r m ∅ v)
    (hr : r.Ready branches) (xs : List (Key × FCompoundWrite Key Leaf)) (f : Key × FCompoundWrite
      Key Leaf → FNode Key Leaf) (hxs : ∀x∈xs,(f x).Fits branches (r.path++[x.1])) :
    Current branches r (m.updateAll (xs.map fun x => ([x.1],f x))) ∅
      (xs.foldl (fun u x => (applyServerOverwriteTo r u [x.1] (f x)).1) v) := by
  induction xs generalizing v m with
  | nil => exact h
  | cons x xs ih =>
    have hstep := (h.serverOverwrite hr [x.1] (f x) (hxs x List.mem_cons_self)).done
      fun p hp => hp.1.elim
    exact ih hstep fun y hy => hxs y (List.mem_cons_of_mem x hy)

/-- A merge of the server. -/
theorem Current.serverMerge (h : Current branches r n ∅ v) (hr : r.Ready branches) (c : List Key)
    (w : FCompoundWrite Key Leaf) (hw : w.Fits branches (r.path++c)) (hroot : w.rootWrite=none) :
    Current branches r (n.updateAll (w.enumerateWrites.map fun x => (c++x.1,x.2))) ∅
      (applyServerMergeTo r v c w).1 := by
  obtain ⟨xs,hxs,happly⟩ := applyServerMergeTo_full r v h.server c w
  have hlaid := hw.laid
  have hmade := h.serverOverwrites hr xs (fun x => x.2.applyToNode (n.getImmediateChild x.1)) ?_
  · rw [hlaid.updateAll_children h.shaped (FCompoundWrite.laid_root c hroot) xs hxs,
      hw.laid_applyToNode h.shaped] at hmade
    rw [happly]
    exact hmade
  · intro x hx
    obtain ⟨hfits,hwithin⟩ := hlaid.child x.1 x.2 ((hxs x).mp hx)
    exact ⟨hwithin,hfits.applyToNode _ (h.shaped.getChild (c := [x.1]))⟩

theorem Current.listenComplete (h : Current branches r n ∅ v) (hr : r.Ready branches)
    (c : List Key) : Current branches r n ∅ (listenCompleteOldCache r v c).1 := by
  unfold listenCompleteOldCache
  dsimp only
  rw [h.serverFull,Bool.true_or,h.serverNode,h.updateServerSnap]
  exact (h.generate hr c).done fun p hp => hp.1.elim

/-- A write of the user goes straight into what is shown. -/
theorem applyUserOverwriteTo_full (r : FWriteTreeRef Key Leaf) (opt : Option (FNode Key Leaf))
    (v : FViewCache Key Leaf) (hfull : v.cachedEventSnap.isFullyInitialized=true) (c : List Key)
    (x : FNode Key Leaf) : (applyUserOverwriteTo r opt v c x).1=
      v.updateEventSnap (v.cachedEventSnap.node.updateChild c x) true := by
  unfold applyUserOverwriteTo
  cases c with
  | nil => rfl
  | cons key rest =>
    have hnew : newUserChild r opt v key rest x=
        (v.cachedEventSnap.node.getImmediateChild key).updateChild rest x := by
      unfold newUserChild
      cases rest with
      | nil => rfl
      | cons _ _ =>
        unfold completeChild
        rw [if_neg (by simp),if_pos (by simp [FCacheNode.isCompleteForChild,hfull])]
    dsimp only
    rw [hnew]
    split
    · rename_i hsame
      rw [←FNode.updateChild_child,←hsame]
      have hkept := v.cachedEventSnap.node.updateChild_getChild [key]
      rw [show v.cachedEventSnap.node.updateChild [key]
        (v.cachedEventSnap.node.getImmediateChild key)=v.cachedEventSnap.node from hkept]
      cases v with
      | mk event server =>
        cases event with
        | mk node full =>
          cases hfull
          rfl
    · dsimp only
      rw [FIndexedFilter.updateChildIn_below,hfull]

theorem applyUserMergeTo_full (r : FWriteTreeRef Key Leaf) (opt : Option (FNode Key Leaf))
    (v : FViewCache Key Leaf) (hfull : v.cachedEventSnap.isFullyInitialized=true) (c : List Key)
    (w : FCompoundWrite Key Leaf) : (applyUserMergeTo r opt v c w).1=
      v.updateEventSnap (v.cachedEventSnap.node.updateAll
        (w.enumerateWrites.map fun x => (c++x.1,x.2))) true := by
  have hhas (p : List Key) : cacheHasChild v p=true := by
    cases p with
    | nil => exact hfull
    | cons key rest => simp [cacheHasChild,FCacheNode.isCompleteForChild,hfull]
  unfold applyUserMergeTo
  dsimp only
  rw [each_fst]
  simp only [hhas,Bool.not_true,List.filter_true,List.filter_false,List.append_nil]
  have hfold (xs : List (List Key × FNode Key Leaf)) (u : FViewCache Key Leaf)
      (hu : u.cachedEventSnap.isFullyInitialized=true) :
      xs.foldl (fun v x => (applyUserOverwriteTo r opt v (c++x.1) x.2).1) u=
        u.updateEventSnap
          (u.cachedEventSnap.node.updateAll (xs.map fun x => (c++x.1,x.2))) true := by
    induction xs generalizing u with
    | nil =>
      cases u with
      | mk event server =>
        cases event with
        | mk node full =>
          cases hu
          rfl
    | cons x xs ih =>
      rw [List.foldl_cons,applyUserOverwriteTo_full r opt u hu,ih _ rfl]
      rfl
  exact hfold w.enumerateWrites v hfull

/-- After the answer to a write the server's data is shown in its places. -/
theorem Current.ack (c : List Key) (affectedTree : FImmutableTree Key Unit)
    (h : Current branches r n (affected c affectedTree) v) (hr : r.Ready branches) :
    Current branches r n ∅ (ackUserWriteOn r v c affectedTree).1 := by
  have hbelow (p : List Key) : p∉{q∈affected c affectedTree | ¬c<+:q} :=
    fun hp => hp.2 (affected_below c affectedTree p hp.1)
  have hcomplete (p : List Key) : (FCacheNode.mk n true).isCompleteForPath p=true := by
    cases p <;> simp [FCacheNode.isCompleteForPath,FCacheNode.isCompleteForChild]
  unfold ackUserWriteOn
  dsimp only
  rw [h.server]
  split
  · rename_i hshadow
    exact (h.shadowed c hshadow).done hbelow
  · split
    · rw [if_pos (by simp [hcomplete])]
      exact (h.refresh hr c).done hbelow
    · rename_i hroot
      have hrestored : affectedTree.forEach.foldl (fun changedChildren x =>
          if (FCacheNode.mk n true).isCompleteForPath (c++x.1) then
            changedChildren.addWrite (n.getChild (c++x.1)) x.1
          else changedChildren) .emptyWrite=restored n c affectedTree := by
        rw [restored,List.foldl_map]
        simp [hcomplete]
      rw [hrestored]
      have hholds := restored_laid n c affectedTree
      have hcovers := restored_covers n c affectedTree ((Bool.not_eq_true _).mp hroot)
      obtain ⟨xs,hxs,happly⟩ := applyServerMergeTo_full r v h.server c (restored n c affectedTree)
      rw [happly]
      refine (h.refreshAll hr xs ?_).done ?_
      · intro x hx
        obtain ⟨htree,_⟩ := FCompoundWrite.mem_childCompoundWrites x.1 x.2 ((hxs x).mp hx)
        rw [FCompoundWrite.applyToNode_eq]
        apply FNode.updateAll_same
        intro w hw
        have hread := (x.2.canonical.mem_forEach w.1 w.2).mp hw
        rw [htree,←FImmutableTree.valueAtPath_cons] at hread
        exact hholds (x.1::w.1) w.2 hread
      · rintro p ⟨hp,hall⟩
        obtain ⟨x,hx,hxp⟩ := hcovers p hp
        exact hall x ((hxs x).mpr hx) hxp

/-- After a write was taken back. -/
theorem Current.revert (h : Current branches r n paths v) (hr : r.Ready branches) (c : List Key)
    (hpaths : ∀p∈paths,c<+:p) : Current branches r n ∅ (revertUserWriteOn r v c).1 := by
  have hmend (d : List Key) (hd : d<+:c) :
      v.cachedEventSnap.node.updateChild d ((r.shown n).getChild d)=r.shown n := by
    have hagrees : FNode.AgreesOff ∅ (v.cachedEventSnap.node.updateChild d
        ((r.shown n).getChild d)) (r.shown n) :=
      (h.event.mend d).mono fun p hp => absurd (hd.trans (hpaths p hp.1)) hp.2
    exact hagrees.eq
  unfold revertUserWriteOn
  split
  · rename_i hshadow
    exact (h.shadowed c hshadow).done fun p hp => hp.2 (hpaths p hp.1)
  · have hcache : (revertedEventCache r v c).1=r.shown n := by
      unfold revertedEventCache
      rw [h.completeServerSnap,h.server]
      cases c with
      | nil =>
        dsimp only
        rw [if_pos rfl,hr.eventCache h.shaped]
        rfl
      | cons key rest =>
        dsimp only
        rw [hr.completeChild h.shaped key]
        dsimp only
        rw [FIndexedFilter.updateChildIn_node]
        · exact hmend [key] (List.prefix_append [key] rest)
        · intro hsame
          have hwhole := hmend (key::rest) (List.prefix_refl _)
          rw [show (r.shown n).getChild (key::rest)=v.cachedEventSnap.node.getChild (key::rest) from
            hsame.symm,FNode.updateChild_getChild] at hwhole
          rw [hwhole]
    have hleaf : (revertedLeaf r v c (r.shown n)).1=r.shown n := by
      unfold revertedLeaf
      rw [h.completeServerSnap,hr.eventCache h.shaped]
      dsimp only
      split
      · split <;> rfl
      · rfl
    dsimp only
    rw [hcache,hleaf,h.serverFull,Bool.true_or]
    exact Current.of_eq h.server h.shaped rfl

end FViewProcessor

end ShareImage
