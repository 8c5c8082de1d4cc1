import ShareImage.Database.ImmutableTree

namespace ShareImage

/-- An immutable snapshot of data, without priorities: a leaf has a value and no children, a node
with children has no value, and `FEmptyNode` has neither. -/
@[ext] structure FNode (Key Leaf : Type) [LinearOrder Key] where
  tree : FImmutableTree Key Leaf
  canonical : tree.Canonical

namespace FNode

variable {Key Leaf : Type} [LinearOrder Key]

def emptyNode : FNode Key Leaf := ⟨.empty,FImmutableTree.empty_canonical⟩

def leaf (value : Leaf) : FNode Key Leaf := ⟨⟨some value,.nil⟩,FImmutableTree.leaf_canonical value⟩

def isEmpty (n : FNode Key Leaf) : Bool := n.tree.isEmpty

def isLeafNode (n : FNode Key Leaf) : Bool := n.tree.value.isSome

/-- The child, or `FEmptyNode` where there is none, as everywhere below a leaf. -/
def getImmediateChild (n : FNode Key Leaf) (childName : Key) : FNode Key Leaf :=
  ⟨n.tree.child childName,n.canonical.child childName⟩

def getChild (n : FNode Key Leaf) (path : List Key) : FNode Key Leaf :=
  match path with
  | [] => n
  | front::rest => (n.getImmediateChild front).getChild rest

/-- A leaf gives way to a child that is not empty, and stays where the child is. -/
def updateImmediateChild (n : FNode Key Leaf) (childName : Key) (newChildNode : FNode Key Leaf) :
    FNode Key Leaf :=
  if hempty : newChildNode.isEmpty=true then
    if n.isLeafNode then n
    else ⟨⟨none,n.tree.children.removeKey childName⟩,nofun,
      n.canonical.children.removeKey childName⟩
  else ⟨⟨none,n.tree.children.insertKey childName newChildNode.tree⟩,nofun,
    n.canonical.children.insertKey childName _ newChildNode.canonical ((Bool.not_eq_true _).mp hempty)⟩

def updateChild (n : FNode Key Leaf) (path : List Key) (newChildNode : FNode Key Leaf) :
    FNode Key Leaf :=
  match path with
  | [] => newChildNode
  | front::rest =>
    if n.isLeafNode && newChildNode.isEmpty then n
    else n.updateImmediateChild front ((n.getImmediateChild front).updateChild rest newChildNode)

theorem eq_emptyNode (n : FNode Key Leaf) (h : n.isEmpty=true) : n=emptyNode := by
  ext1
  exact n.tree.eq_empty_of_isEmpty h

@[simp] theorem getChild_emptyNode (path : List Key) :
    (emptyNode : FNode Key Leaf).getChild path=emptyNode := by
  induction path with
  | nil => rfl
  | cons k path ih => exact ih

/-- Below a leaf there is nothing. -/
theorem getImmediateChild_leaf (n : FNode Key Leaf) (h : n.isLeafNode=true) (k : Key) :
    n.getImmediateChild k=emptyNode := by
  ext1
  change n.tree.child k=.empty
  rw [FImmutableTree.child,n.canonical.leaf h]
  rfl

theorem getImmediateChild_updateImmediateChild (n x : FNode Key Leaf) (j k : Key) :
    (n.updateImmediateChild k x).getImmediateChild j=if j=k then x else n.getImmediateChild j := by
  unfold updateImmediateChild
  split
  · rename_i hempty
    rw [x.eq_emptyNode hempty]
    split
    · rename_i hleaf
      rw [n.getImmediateChild_leaf hleaf]
      split <;> rfl
    · ext1
      change (FImmutableTree.mk none (n.tree.children.removeKey k)).child j=_
      rw [FImmutableTree.child_removeKey]
      split <;> rfl
  · ext1
    change (FImmutableTree.mk none (n.tree.children.insertKey k x.tree)).child j=_
    rw [FImmutableTree.child_insertKey]
    split <;> rfl

theorem getChild_append (n : FNode Key Leaf) (p q : List Key) :
    n.getChild (p++q)=(n.getChild p).getChild q := by
  induction p generalizing n with
  | nil => rfl
  | cons k p ih => exact ih (n.getImmediateChild k)

@[simp] theorem updateChild_nil (n x : FNode Key Leaf) : n.updateChild [] x=x := rfl

/-- An update is read where it was made. -/
theorem getChild_updateChild (n x : FNode Key Leaf) (p : List Key) :
    (n.updateChild p x).getChild p=x := by
  induction p generalizing n with
  | nil => rfl
  | cons k p ih =>
    unfold updateChild
    split
    · rename_i hkept
      obtain ⟨hleaf,hempty⟩ := (Bool.and_eq_true ..).mp hkept
      rw [getChild,n.getImmediateChild_leaf hleaf,x.eq_emptyNode hempty,getChild_emptyNode]
    · rw [getChild,getImmediateChild_updateImmediateChild,if_pos rfl]
      exact ih (n.getImmediateChild k)

/-- An update changes nothing at paths apart from it. -/
theorem getChild_updateChild_apart (n x : FNode Key Leaf) (p q : List Key) (hpq : ¬p<+:q)
    (hqp : ¬q<+:p) : (n.updateChild p x).getChild q=n.getChild q := by
  induction p generalizing n q with
  | nil => exact absurd List.nil_prefix hpq
  | cons k p ih =>
    cases q with
    | nil => exact absurd List.nil_prefix hqp
    | cons j q =>
      unfold updateChild
      split
      · rfl
      · rw [getChild,getChild,getImmediateChild_updateImmediateChild]
        by_cases hj : j=k
        · subst hj
          rw [if_pos rfl]
          apply ih
          · exact fun h => hpq (List.cons_prefix_cons.mpr ⟨rfl,h⟩)
          · exact fun h => hqp (List.cons_prefix_cons.mpr ⟨rfl,h⟩)
        · rw [if_neg hj]

/-- No leaf lies strictly above the path. -/
def Open (n : FNode Key Leaf) (p : List Key) : Prop :=
  ∀s,s<+:p → s≠p → n.tree.valueAtPath s=none

instance (n : FNode Key Leaf) (p : List Key) : Decidable (n.Open p) :=
  decidable_of_iff (∀s∈p.inits,s≠p → n.tree.valueAtPath s=none) (by simp [Open])

theorem ext_leaves (n m : FNode Key Leaf)
    (h : ∀q,n.tree.valueAtPath q=m.tree.valueAtPath q) : n=m := by
  ext1
  exact n.canonical.ext m.canonical h

theorem valueAtPath_getChild (n : FNode Key Leaf) (p q : List Key) :
    (n.getChild p).tree.valueAtPath q=n.tree.valueAtPath (p++q) := by
  induction p generalizing n with
  | nil => rfl
  | cons k p ih =>
    rw [List.cons_append,FImmutableTree.valueAtPath_cons]
    exact ih (n.getImmediateChild k)

theorem Open.isLeafNode {n : FNode Key Leaf} {k : Key} {p : List Key} (h : n.Open (k::p)) :
    n.isLeafNode=false := by
  have hroot : n.tree.value=none := h [] List.nil_prefix (by simp)
  rw [FNode.isLeafNode,hroot]
  rfl

theorem Open.getImmediateChild {n : FNode Key Leaf} {k : Key} {p : List Key} (h : n.Open (k::p)) :
    (n.getImmediateChild k).Open p := by
  intro s hs hne
  have hread := h (k::s) (List.cons_prefix_cons.mpr ⟨rfl,hs⟩) (by simpa using hne)
  rwa [FImmutableTree.valueAtPath_cons] at hread

theorem Open.getChild {n : FNode Key Leaf} {p q : List Key} (h : n.Open (p++q)) :
    (n.getChild p).Open q := by
  intro s hs hne
  rw [valueAtPath_getChild]
  exact h (p++s) ((List.prefix_append_right_inj p).mpr hs) (by simpa using hne)

theorem updateChild_cons (n x : FNode Key Leaf) (k : Key) (p : List Key) (h : n.isLeafNode=false) :
    n.updateChild (k::p) x=
      n.updateImmediateChild k ((n.getImmediateChild k).updateChild p x) := by
  simp [updateChild,h]

/-- An update where no leaf lies above replaces what is there and nothing else. -/
theorem valueAtPath_updateChild (n x : FNode Key Leaf) (p q : List Key) (h : n.Open p) :
    (n.updateChild p x).tree.valueAtPath q=
      if p<+:q then x.tree.valueAtPath (q.drop p.length) else n.tree.valueAtPath q := by
  induction p generalizing n q with
  | nil => simp
  | cons k p ih =>
    have hleaf := h.isLeafNode
    rw [updateChild_cons n x k p hleaf]
    cases q with
    | nil =>
      have hroot : n.tree.value=none := h [] List.nil_prefix (by simp)
      simp only [List.prefix_nil,reduceCtorEq,if_false,FImmutableTree.valueAtPath_nil,hroot]
      unfold updateImmediateChild
      split <;> simp [hleaf]
    | cons j q =>
      have hchild := congrArg (fun m => m.tree.valueAtPath q)
        (n.getImmediateChild_updateImmediateChild ((n.getImmediateChild k).updateChild p x) j k)
      simp only [FImmutableTree.valueAtPath_cons]
      refine hchild.trans ?_
      by_cases hj : j=k
      · subst hj
        rw [if_pos rfl,ih (n.getImmediateChild j) q h.getImmediateChild]
        simp [List.cons_prefix_cons,getImmediateChild]
      · have hkj : ¬k=j := Ne.symm hj
        simp [hj,hkj,List.cons_prefix_cons,getImmediateChild]

theorem updateChild_append (n x : FNode Key Leaf) (p q : List Key) (h : n.Open p) :
    n.updateChild (p++q) x=n.updateChild p ((n.getChild p).updateChild q x) := by
  induction p generalizing n with
  | nil => rfl
  | cons k p ih =>
    rw [List.cons_append,updateChild_cons n x k _ h.isLeafNode,
      updateChild_cons n _ k p h.isLeafNode,ih (n.getImmediateChild k) h.getImmediateChild]
    rfl

end FNode

end ShareImage
