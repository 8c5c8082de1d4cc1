import ShareImage.Database.Node
import ShareImage.Framework.Overlay

namespace ShareImage

open Framework

/-- Writes at several paths, none of them of a priority: a tree of nodes, whose values are its
leaves. -/
@[ext] structure FCompoundWrite (Key Leaf : Type) [LinearOrder Key] where
  writeTree : FImmutableTree Key (FNode Key Leaf)
  canonical : writeTree.Canonical

namespace FCompoundWrite

variable {Key Leaf : Type} [LinearOrder Key]

def emptyWrite : FCompoundWrite Key Leaf := ⟨.empty,FImmutableTree.empty_canonical⟩

/-- One write, at the root. -/
def root (node : FNode Key Leaf) : FCompoundWrite Key Leaf :=
  ⟨⟨some node,.nil⟩,FImmutableTree.leaf_canonical node⟩

def isEmpty (w : FCompoundWrite Key Leaf) : Bool := w.writeTree.isEmpty

/-- A write at or below another goes into its node. -/
def addWrite (w : FCompoundWrite Key Leaf) (node : FNode Key Leaf) (path : List Key) :
    FCompoundWrite Key Leaf :=
  match path with
  | [] => root node
  | front::rest =>
    match hroot : w.writeTree.findRootMostValueAndPath (front::rest) with
    | some (rootPath,value) =>
      ⟨w.writeTree.setValue (value.updateChild ((front::rest).drop rootPath.length) node) rootPath,
        w.canonical.setValue _ rootPath (by
          rw [(w.writeTree.findRootMost_some _ rootPath value hroot).2]
          rfl)⟩
    | none =>
      ⟨w.writeTree.setTree ⟨some node,.nil⟩ (front::rest),
        w.canonical.setTree (FImmutableTree.leaf_canonical node) _ (.inr fun s hs _ =>
          w.writeTree.findRootMost_none _ s hroot hs)⟩

def enumerateWrites (w : FCompoundWrite Key Leaf) : List (List Key × FNode Key Leaf) :=
  w.writeTree.forEach

def addCompoundWrite (w compoundWrite : FCompoundWrite Key Leaf) (path : List Key) :
    FCompoundWrite Key Leaf :=
  compoundWrite.enumerateWrites.foldl (fun newWrite x => newWrite.addWrite x.2 (path++x.1)) w

/-- The write at the path and all deeper ones go. -/
def removeWriteAtPath (w : FCompoundWrite Key Leaf) (path : List Key) : FCompoundWrite Key Leaf :=
  match path with
  | [] => emptyWrite
  | front::rest =>
    ⟨w.writeTree.setTree .empty (front::rest),
      w.canonical.setTree FImmutableTree.empty_canonical _ (.inl rfl)⟩

def completeNodeAtPath (w : FCompoundWrite Key Leaf) (path : List Key) :
    Option (FNode Key Leaf) :=
  (w.writeTree.findRootMostValueAndPath path).map fun x => x.2.getChild (path.drop x.1.length)

def hasCompleteWriteAtPath (w : FCompoundWrite Key Leaf) (path : List Key) : Bool :=
  (w.completeNodeAtPath path).isSome

def childCompoundWriteAtPath (w : FCompoundWrite Key Leaf) (path : List Key) :
    FCompoundWrite Key Leaf :=
  match path with
  | [] => w
  | front::rest =>
    match w.completeNodeAtPath (front::rest) with
    | some shadowingNode => root shadowingNode
    | none => ⟨w.writeTree.subtreeAtPath (front::rest),w.canonical.subtreeAtPath _⟩

/-- The writes of the children of a tree at the path. -/
def applySubtreeWrite : FChildren Key (FNode Key Leaf) → List Key → FNode Key Leaf → FNode Key Leaf
  | .nil,_,node => node
  | .cons childKey value children rest,relativePath,node =>
    let blockNode :=
      match value with
      | some x => node.updateChild (relativePath++[childKey]) x
      | none => applySubtreeWrite children (relativePath++[childKey]) node
    applySubtreeWrite rest relativePath blockNode

def applyToNode (w : FCompoundWrite Key Leaf) (node : FNode Key Leaf) : FNode Key Leaf :=
  match w.writeTree.value with
  | some x => node.updateChild [] x
  | none => applySubtreeWrite w.writeTree.children [] node

/-- Applying the writes in their order makes each of them once. -/
theorem applySubtreeWrite_eq (c : FChildren Key (FNode Key Leaf)) (hc : c.Canonical)
    (path : List Key) (node : FNode Key Leaf) :
    applySubtreeWrite c path node=
      c.forEach.foldl (fun n x => n.updateChild (path++x.1) x.2) node := by
  induction c generalizing path node with
  | nil => rfl
  | cons key value children rest ihchildren ihrest =>
    obtain ⟨hentry,hchildren,_,hrest⟩ := hc
    unfold applySubtreeWrite FChildren.forEach
    rw [ihrest hrest,List.foldl_append,List.foldl_map]
    congr 1
    cases value with
    | some x =>
      have hnil : children=.nil := hentry.mp rfl
      subst hnil
      rfl
    | none =>
      simp only [Option.toList_none,List.map_nil,List.append_nil]
      rw [ihchildren hchildren]
      simp only [List.append_assoc,List.singleton_append]

theorem applyToNode_eq (w : FCompoundWrite Key Leaf) (node : FNode Key Leaf) :
    w.applyToNode node=w.enumerateWrites.foldl (fun n x => n.updateChild x.1 x.2) node := by
  unfold applyToNode enumerateWrites FImmutableTree.forEach
  cases hvalue : w.writeTree.value with
  | some x =>
    have hnil : w.writeTree.children=.nil := w.canonical.leaf (by rw [hvalue]; rfl)
    rw [hnil]
    rfl
  | none =>
    simpa using applySubtreeWrite_eq w.writeTree.children w.canonical.children [] node

/-- Updates apart from a path change nothing there. -/
theorem getChild_foldl_apart (xs : List (List Key × FNode Key Leaf)) (n : FNode Key Leaf)
    (q : List Key) (h : ∀x∈xs,¬x.1<+:q ∧ ¬q<+:x.1) :
    (xs.foldl (fun n x => n.updateChild x.1 x.2) n).getChild q=n.getChild q := by
  induction xs generalizing n with
  | nil => rfl
  | cons x xs ih =>
    obtain ⟨hxq,hqx⟩ := h x List.mem_cons_self
    rw [List.foldl_cons,ih _ fun y hy => h y (List.mem_cons_of_mem x hy)]
    exact n.getChild_updateChild_apart x.2 x.1 q hxq hqx

theorem getChild_foldl_mem (xs : List (List Key × FNode Key Leaf)) (n : FNode Key Leaf)
    (hxs : xs.Pairwise fun x y => ¬x.1<+:y.1 ∧ ¬y.1<+:x.1) (x : List Key × FNode Key Leaf)
    (hx : x∈xs) : (xs.foldl (fun n x => n.updateChild x.1 x.2) n).getChild x.1=x.2 := by
  induction xs generalizing n with
  | nil => contradiction
  | cons y xs ih =>
    obtain ⟨hy,hrest⟩ := List.pairwise_cons.mp hxs
    rw [List.foldl_cons]
    rcases List.mem_cons.mp hx with rfl | hx
    · rw [getChild_foldl_apart xs _ x.1 fun z hz => ⟨(hy z hz).2,(hy z hz).1⟩]
      exact n.getChild_updateChild x.2 x.1
    · exact ih _ hrest hx

/-- Where a write is complete, it is what is read after all are applied. -/
theorem getChild_applyToNode (w : FCompoundWrite Key Leaf) (node x : FNode Key Leaf)
    (p : List Key) (h : w.completeNodeAtPath p=some x) : (w.applyToNode node).getChild p=x := by
  obtain ⟨⟨r,y⟩,hroot,hx⟩ := Option.map_eq_some_iff.mp h
  obtain ⟨⟨q,rfl⟩,hread⟩ := w.writeTree.findRootMost_some p r y hroot
  have hmem : (r,y)∈w.enumerateWrites := (w.canonical.mem_forEach r y).mpr hread
  rw [applyToNode_eq,FNode.getChild_append,
    getChild_foldl_mem w.enumerateWrites node w.canonical.forEach_apart (r,y) hmem]
  simpa using hx

section Overlay

/-- How a write goes into a node above it. -/
def graft (value : FNode Key Leaf) (path : List Key) (node : FNode Key Leaf) : FNode Key Leaf :=
  value.updateChild path node

theorem graft_nil (value node : FNode Key Leaf) : graft value [] node=node := rfl

/-- The writes as values laid over the tree. -/
def overlay (w : FCompoundWrite Key Leaf) : Overlay Key (FNode Key Leaf) :=
  ⟨w.writeTree.valueAtPath,w.canonical.apart⟩

theorem overlay_injective (w v : FCompoundWrite Key Leaf) (h : w.overlay=v.overlay) : w=v := by
  ext1
  apply w.canonical.ext v.canonical
  intro p
  exact congrFun (congrArg Overlay.read h) p

theorem overlay_emptyWrite : (emptyWrite : FCompoundWrite Key Leaf).overlay=.empty := by
  ext1
  funext p
  exact FImmutableTree.empty_valueAtPath p

theorem read_root (node : FNode Key Leaf) (p : List Key) :
    (root node).overlay.read p=if p=[] then some node else none := by
  cases p with
  | nil => rfl
  | cons k p =>
    change (FImmutableTree.mk (some node) .nil).valueAtPath (k::p)=none
    rw [FImmutableTree.valueAtPath_cons]
    exact FImmutableTree.empty_valueAtPath p

theorem covers_of_findRootMost (w : FCompoundWrite Key Leaf) (p r : List Key)
    (value : FNode Key Leaf) (h : w.writeTree.findRootMostValueAndPath p=some (r,value)) :
    r<+:p ∧ w.overlay.read r=some value ∧ w.overlay.Covers p := by
  obtain ⟨hr,hread⟩ := w.writeTree.findRootMost_some p r value h
  exact ⟨hr,hread,r,value,hr,hread⟩

theorem not_covers_of_findRootMost (w : FCompoundWrite Key Leaf) (p : List Key)
    (h : w.writeTree.findRootMostValueAndPath p=none) : ¬w.overlay.Covers p := by
  rintro ⟨s,value,hs,hread⟩
  have hnone := w.writeTree.findRootMost_none p s h hs
  rw [show w.writeTree.valueAtPath s=some value from hread] at hnone
  contradiction

theorem overlay_addWrite (w : FCompoundWrite Key Leaf) (node : FNode Key Leaf) (p : List Key) :
    (w.addWrite node p).overlay=w.overlay.put graft p node := by
  ext1
  funext q
  cases p with
  | nil =>
    rw [Overlay.put_replaces graft_nil w.overlay [] [] q node List.nil_prefix fun s hs hne =>
      absurd (List.prefix_nil.mp hs) hne]
    simp [addWrite,read_root]
  | cons k p =>
    simp only [addWrite]
    split
    · rename_i r value hroot
      obtain ⟨hr,hread,hcovers⟩ := w.covers_of_findRootMost _ r value hroot
      rw [w.overlay.put_covered _ q node hcovers]
      change (w.writeTree.setValue _ r).valueAtPath q=_
      rw [FImmutableTree.valueAtPath_setValue]
      by_cases hq : q=r
      · subst hq
        rw [if_pos rfl,if_pos hr,hread]
        rfl
      · rw [if_neg hq]
        split
        · rename_i hqp
          have hnone : w.overlay.read q=none := by
            cases hold : w.overlay.read q with
            | none => rfl
            | some old => exact absurd (w.overlay.covering_unique _ q r old value hqp hr hold hread) hq
          rw [hnone]
          exact hnone
        · rfl
    · rename_i hroot
      rw [w.overlay.put_free _ q node (w.not_covers_of_findRootMost _ hroot)]
      change (w.writeTree.setTree ⟨some node,.nil⟩ (k::p)).valueAtPath q=_
      rw [FImmutableTree.valueAtPath_setTree]
      by_cases hpq : k::p<+:q
      · obtain ⟨rest,rfl⟩ := hpq
        have hread : (FImmutableTree.mk (some node) .nil).valueAtPath rest=
            if rest=[] then some node else none := read_root node rest
        simp [hread]
      · have hne : q≠k::p := by
          rintro rfl
          exact hpq (List.prefix_refl _)
        rw [if_neg hpq,if_neg hne,if_neg hpq]
        rfl

theorem overlay_addWrites (w : FCompoundWrite Key Leaf)
    (writes : List (List Key × FNode Key Leaf)) :
    (writes.foldl (fun w x => w.addWrite x.2 x.1) w).overlay=w.overlay.layer graft writes := by
  induction writes generalizing w with
  | nil => rfl
  | cons x writes ih => rw [List.foldl_cons,ih,overlay_addWrite,Overlay.layer_cons]

theorem overlay_addCompoundWrite (w compoundWrite : FCompoundWrite Key Leaf) (p : List Key) :
    (w.addCompoundWrite compoundWrite p).overlay=
      w.overlay.layer graft (compoundWrite.enumerateWrites.map fun x => (p++x.1,x.2)) := by
  rw [←overlay_addWrites,List.foldl_map]
  rfl

theorem overlay_removeWriteAtPath (w : FCompoundWrite Key Leaf) (p : List Key) :
    (w.removeWriteAtPath p).overlay=w.overlay.clear p := by
  ext1
  funext q
  rw [Overlay.clear_read]
  cases p with
  | nil =>
    rw [if_pos List.nil_prefix]
    exact FImmutableTree.empty_valueAtPath q
  | cons k p =>
    change (w.writeTree.setTree .empty (k::p)).valueAtPath q=_
    rw [FImmutableTree.valueAtPath_setTree]
    split
    · exact FImmutableTree.empty_valueAtPath _
    · rfl

end Overlay

end FCompoundWrite

end ShareImage
