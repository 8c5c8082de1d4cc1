import ShareImage.Database.Change
import ShareImage.Framework.Ordered

namespace ShareImage

open Framework

variable {Key Leaf : Type} [LinearOrder Key]

/-- What a listener is told of children without priorities, none of which moves. A child that comes
or changes has the key of the child before it. -/
inductive FDataEvent (Key Leaf : Type) [LinearOrder Key] where
  | childRemoved (childKey : Key) (node : FNode Key Leaf)
  | childAdded (childKey : Key) (node : FNode Key Leaf) (prevKey : Option Key)
  | childChanged (childKey : Key) (node : FNode Key Leaf) (prevKey : Option Key)
  | value (node : FNode Key Leaf)

namespace FNode

/-- `none` where it throws, for want of the child. -/
def predecessorChildKey (n : FNode Key Leaf) (childKey : Key) : Option (Option Key) :=
  if n.isLeafNode then some none
  else if n.hasChild childKey then some (Ordered.predecessor n.tree.children.keys childKey)
  else none

def lookup (n : FNode Key Leaf) (key : Key) : Option (FNode Key Leaf) :=
  if n.hasChild key then some (n.getImmediateChild key) else none

theorem lookup_eq_none (n : FNode Key Leaf) (key : Key) :
    n.lookup key=none ↔ n.getImmediateChild key=emptyNode := by
  unfold lookup
  split
  · rename_i hchild
    refine iff_of_false (by simp) ?_
    intro hempty
    rw [hasChild_iff,hempty] at hchild
    contradiction
  · rename_i hno
    exact iff_of_true rfl (n.child_of_not_hasChild key hno)

theorem lookup_eq_some (n : FNode Key Leaf) (key : Key) (x : FNode Key Leaf) :
    n.lookup key=some x ↔ x.isEmpty=false ∧ n.getImmediateChild key=x := by
  unfold lookup
  split
  · rename_i hchild
    rw [Option.some.injEq]
    constructor
    · rintro rfl
      exact ⟨(n.hasChild_iff key).mp hchild,rfl⟩
    · exact fun h => h.2
  · rename_i hno
    refine iff_of_false (by simp) ?_
    rintro ⟨hx,rfl⟩
    exact hno ((n.hasChild_iff key).mpr hx)

theorem lists_children (n : FNode Key Leaf) : Ordered.Lists n.children n.lookup := by
  refine ⟨n.children_sorted,?_⟩
  intro key x
  rw [n.mem_children,n.lookup_eq_some]

theorem predecessorChildKey_eq (n : FNode Key Leaf) (key : Key) (h : n.hasChild key=true) :
    n.predecessorChildKey key=some (Ordered.predecessor (n.children.map Prod.fst) key) := by
  have hleaf : n.isLeafNode=false := by
    cases hleaf : n.isLeafNode with
    | false => rfl
    | true =>
      rw [hasChild,n.getImmediateChild_leaf hleaf] at h
      contradiction
  simp [predecessorChildKey,hleaf,h,children_keys]

/-- Nodes without a leaf of their own are told apart by their children. -/
theorem ext_children (n m : FNode Key Leaf) (hn : n.isLeafNode=false) (hm : m.isLeafNode=false)
    (h : ∀key,n.getImmediateChild key=m.getImmediateChild key) : n=m := by
  apply ext_leaves
  intro q
  cases q with
  | nil =>
    rw [FImmutableTree.valueAtPath_nil,FImmutableTree.valueAtPath_nil,n.value_of_not_leaf hn,
      m.value_of_not_leaf hm]
  | cons key q =>
    have hchild := congrArg (fun x => x.tree.valueAtPath q) (h key)
    rw [FImmutableTree.valueAtPath_cons,FImmutableTree.valueAtPath_cons]
    exact hchild

/-- One that is neither a leaf nor empty has a child, and so nothing with its children is a leaf. -/
theorem isLeafNode_congr (n m : FNode Key Leaf) (hn : n.isLeafNode=false) (hempty : n.isEmpty=false)
    (h : ∀key,n.getImmediateChild key=m.getImmediateChild key) : m.isLeafNode=false := by
  cases hm : m.isLeafNode with
  | false => rfl
  | true =>
    have hnone : n=emptyNode := by
      apply n.ext_children emptyNode hn rfl
      intro key
      rw [h,m.getImmediateChild_leaf hm]
      exact (getChild_emptyNode [key]).symm
    rw [hnone] at hempty
    contradiction

end FNode

namespace FChange

def removed : FChange Key Leaf → Option (FNode Key Leaf)
  | .childRemoved node => some node
  | _ => none

def added : FChange Key Leaf → Option (FNode Key Leaf)
  | .childAdded node => some node
  | _ => none

def changed : FChange Key Leaf → Option (FNode Key Leaf)
  | .childChanged node _ => some node
  | _ => none

end FChange

namespace FEventGenerator

/-- The changes of one type, sorted by key. -/
def filteredChanges (type : FChange Key Leaf → Option (FNode Key Leaf))
    (changes : List (Key × FChange Key Leaf)) : List (Key × FNode Key Leaf) :=
  (changes.filterMap fun x => (type x.2).map fun node => (x.1,node)).mergeSort
    fun one two => one.1 ≤ two.1

/-- The changes type by type, and the value last. No child ever moves without priorities. -/
def generateEventsForChanges (changes : List (Key × FChange Key Leaf))
    (value : Option (FNode Key Leaf)) (eventCache : FNode Key Leaf) :
    Option (List (FDataEvent Key Leaf)) := do
  let added ← (filteredChanges FChange.added changes).mapM fun x =>
    (eventCache.predecessorChildKey x.1).map (FDataEvent.childAdded x.1 x.2)
  let changed ← (filteredChanges FChange.changed changes).mapM fun x =>
    (eventCache.predecessorChildKey x.1).map (FDataEvent.childChanged x.1 x.2)
  return (filteredChanges FChange.removed changes).map (fun x => .childRemoved x.1 x.2)++added++
    changed++value.toList.map .value

end FEventGenerator

/-- A listener that keeps the children in a list, and the last value. -/
structure Listener (Key Leaf : Type) [LinearOrder Key] where
  children : List (Key × FNode Key Leaf) := []
  value : Option (FNode Key Leaf) := none

namespace Listener

def receive (l : Listener Key Leaf) : FDataEvent Key Leaf → Listener Key Leaf
  | .childRemoved childKey _ => {l with children := Ordered.erase l.children childKey}
  | .childAdded childKey node prevKey =>
    {l with children := Ordered.insertAfter prevKey (childKey,node) l.children}
  | .childChanged childKey node _ => {l with children := Ordered.replace l.children (childKey,node)}
  | .value node => {l with value := some node}

end Listener

namespace FEventGenerator

/-- Changes of different children, as the generator is given them. -/
structure Between (changes : List (Key × FChange Key Leaf)) (n m : FNode Key Leaf) : Prop where
  distinct : changes.Pairwise fun x y => x.1≠y.1
  wellFormed : ∀x∈changes,x.2.WellFormed ∧ n.getImmediateChild x.1=x.2.old ∧
    m.getImmediateChild x.1=x.2.new
  rest : ∀key,(∀x∈changes,x.1≠key) → n.getImmediateChild key=m.getImmediateChild key

variable {changes : List (Key × FChange Key Leaf)} {n m : FNode Key Leaf}

theorem mem_filteredChanges (type : FChange Key Leaf → Option (FNode Key Leaf)) (key : Key)
    (node : FNode Key Leaf) : (key,node)∈filteredChanges type changes ↔
      ∃change,(key,change)∈changes ∧ type change=some node := by
  simp only [filteredChanges,List.mem_mergeSort,List.mem_filterMap,Option.map_eq_some_iff,
    Prod.mk.injEq,Prod.exists]
  constructor
  · rintro ⟨_,change,hmem,_,hnode,rfl,rfl⟩
    exact ⟨change,hmem,hnode⟩
  · rintro ⟨change,hmem,hnode⟩
    exact ⟨key,change,hmem,node,hnode,rfl,rfl⟩

theorem filteredChanges_ascending (type : FChange Key Leaf → Option (FNode Key Leaf))
    (h : changes.Pairwise fun x y => x.1≠y.1) :
    Ordered.Ascending (filteredChanges type changes) := by
  have hdistinct : (filteredChanges type changes).Pairwise fun x y => x.1≠y.1 := by
    refine ((List.mergeSort_perm _ _).pairwise_iff fun hne => Ne.symm hne).mpr ?_
    refine List.pairwise_filterMap.mpr (h.imp ?_)
    intro x y hne u hu v hv
    obtain ⟨_,_,rfl⟩ := Option.map_eq_some_iff.mp hu
    obtain ⟨_,_,rfl⟩ := Option.map_eq_some_iff.mp hv
    exact hne
  have hsorted : (filteredChanges type changes).Pairwise fun x y => decide (x.1 ≤ y.1)=true :=
    List.pairwise_mergeSort (fun a b c => by simpa using le_trans)
      (fun a b => by simpa using le_total a.1 b.1) _
  refine (hsorted.and hdistinct).imp ?_
  rintro x y ⟨hle,hne⟩
  exact lt_of_le_of_ne (by simpa using hle) hne

theorem mapM_eq_some {α β : Type} (f : α → Option β) (g : α → β) (xs : List α)
    (h : ∀x∈xs,f x=some (g x)) : xs.mapM f=some (xs.map g) := by
  induction xs with
  | nil => rfl
  | cons x xs ih =>
    rw [List.mapM_cons,h x List.mem_cons_self,ih fun y hy => h y (List.mem_cons_of_mem x hy)]
    rfl

theorem mem_filteredKeys (type : FChange Key Leaf → Option (FNode Key Leaf)) (key : Key) :
    key∈(filteredChanges type changes).map Prod.fst ↔
      ∃change node,(key,change)∈changes ∧ type change=some node := by
  rw [List.mem_map]
  constructor
  · rintro ⟨⟨_,node⟩,hmem,rfl⟩
    obtain ⟨change,hchange,hnode⟩ := (mem_filteredChanges type _ node).mp hmem
    exact ⟨change,node,hchange,hnode⟩
  · rintro ⟨change,node,hchange,hnode⟩
    exact ⟨(key,node),(mem_filteredChanges type key node).mpr ⟨change,hchange,hnode⟩,rfl⟩

theorem Between.key_cases (h : Between changes n m) (key : Key) :
    n.lookup key=m.lookup key ∨ ∃change,(key,change)∈changes := by
  by_cases hkey : ∃change,(key,change)∈changes
  · exact .inr hkey
  · left
    have hsame : n.getImmediateChild key=m.getImmediateChild key := by
      apply h.rest
      rintro ⟨_,change⟩ hmem rfl
      exact hkey ⟨change,hmem⟩
    unfold FNode.lookup FNode.hasChild
    rw [hsame]

theorem Between.of_removed (h : Between changes n m) (key : Key) (node : FNode Key Leaf)
    (hmem : (key,.childRemoved node)∈changes) : n.lookup key=some node ∧ m.lookup key=none := by
  obtain ⟨hwell,hold,hnew⟩ := h.wellFormed _ hmem
  exact ⟨(n.lookup_eq_some key node).mpr ⟨hwell,hold⟩,(m.lookup_eq_none key).mpr hnew⟩

theorem Between.of_added (h : Between changes n m) (key : Key) (node : FNode Key Leaf)
    (hmem : (key,.childAdded node)∈changes) : n.lookup key=none ∧ m.lookup key=some node := by
  obtain ⟨hwell,hold,hnew⟩ := h.wellFormed _ hmem
  exact ⟨(n.lookup_eq_none key).mpr hold,(m.lookup_eq_some key node).mpr ⟨hwell,hnew⟩⟩

theorem Between.of_changed (h : Between changes n m) (key : Key) (node oldNode : FNode Key Leaf)
    (hmem : (key,.childChanged node oldNode)∈changes) :
    n.lookup key=some oldNode ∧ m.lookup key=some node := by
  obtain ⟨hwell,hold,hnew⟩ := h.wellFormed _ hmem
  exact ⟨(n.lookup_eq_some key oldNode).mpr ⟨hwell.2,hold⟩,
    (m.lookup_eq_some key node).mpr ⟨hwell.1,hnew⟩⟩

theorem Between.notices (h : Between changes n m) : Ordered.Notices n.lookup m.lookup
    ((filteredChanges FChange.removed changes).map Prod.fst)
    (filteredChanges FChange.added changes) (filteredChanges FChange.changed changes) := by
  constructor
  · intro key hkey
    obtain ⟨change,_,hmem,hnode⟩ := (mem_filteredKeys FChange.removed key).mp hkey
    cases change with
    | childRemoved node => exact (h.of_removed key node hmem).2
    | _ => contradiction
  · intro key hm
    rcases h.key_cases key with hsame | ⟨change,hmem⟩
    · exact .inl (hsame.trans hm)
    · cases change with
      | childRemoved node =>
        exact .inr ((mem_filteredKeys FChange.removed key).mpr ⟨_,node,hmem,rfl⟩)
      | childAdded node => exact .inl (h.of_added key node hmem).1
      | childChanged node oldNode => simp [(h.of_changed key node oldNode hmem).2] at hm
  · rintro ⟨key,node⟩ hx
    obtain ⟨change,hmem,hnode⟩ := (mem_filteredChanges FChange.added key node).mp hx
    cases change with
    | childAdded node => exact Option.some.inj hnode ▸ h.of_added key node hmem
    | _ => contradiction
  · intro key hn
    rcases h.key_cases key with hsame | ⟨change,hmem⟩
    · exact .inl (hsame.symm.trans hn)
    · cases change with
      | childRemoved node => exact .inl (h.of_removed key node hmem).2
      | childAdded node => exact .inr ((mem_filteredKeys FChange.added key).mpr ⟨_,node,hmem,rfl⟩)
      | childChanged node oldNode => simp [(h.of_changed key node oldNode hmem).1] at hn
  · rintro ⟨key,node⟩ hx
    obtain ⟨change,hmem,hnode⟩ := (mem_filteredChanges FChange.changed key node).mp hx
    cases change with
    | childChanged node oldNode => exact Option.some.inj hnode ▸ (h.of_changed key node oldNode hmem).2
    | _ => contradiction
  · intro key
    rcases h.key_cases key with hsame | ⟨change,hmem⟩
    · exact .inl hsame
    · cases change with
      | childRemoved node => exact .inr (.inr (.inl (h.of_removed key node hmem).2))
      | childAdded node => exact .inr (.inl (h.of_added key node hmem).1)
      | childChanged node oldNode =>
        exact .inr (.inr (.inr ((mem_filteredKeys FChange.changed key).mpr ⟨_,node,hmem,rfl⟩)))

theorem mapM_predecessor (event : Key → FNode Key Leaf → Option Key → FDataEvent Key Leaf)
    (xs : List (Key × FNode Key Leaf)) (h : ∀x∈xs,m.lookup x.1=some x.2) :
    xs.mapM (fun x => (m.predecessorChildKey x.1).map (event x.1 x.2))=
      some (xs.map fun x => event x.1 x.2 (Ordered.predecessor (m.children.map Prod.fst) x.1)) := by
  apply mapM_eq_some
  intro x hx
  obtain ⟨hnode,hchild⟩ := (m.lookup_eq_some x.1 x.2).mp (h x hx)
  have hhas : m.hasChild x.1=true := (m.hasChild_iff x.1).mpr (by rw [hchild,hnode])
  rw [m.predecessorChildKey_eq x.1 hhas]
  rfl

/-- A child that comes or changes is in the node of the events, so that they are all made. -/
theorem Between.generateEvents (h : Between changes n m) (value : Option (FNode Key Leaf)) :
    generateEventsForChanges changes value m=some
      ((filteredChanges FChange.removed changes).map (fun x => FDataEvent.childRemoved x.1 x.2)++
        (filteredChanges FChange.added changes).map (fun x => FDataEvent.childAdded x.1 x.2
          (Ordered.predecessor (m.children.map Prod.fst) x.1))++
        (filteredChanges FChange.changed changes).map (fun x => FDataEvent.childChanged x.1 x.2
          (Ordered.predecessor (m.children.map Prod.fst) x.1))++value.toList.map .value) := by
  unfold generateEventsForChanges
  rw [mapM_predecessor FDataEvent.childAdded _ fun x hx => (h.notices.come_new x hx).2,
    mapM_predecessor FDataEvent.childChanged _ h.notices.changed_new]
  rfl

end FEventGenerator

namespace Listener

theorem receive_removed (l : Listener Key Leaf) (xs : List (Key × FNode Key Leaf)) :
    (xs.map fun x => FDataEvent.childRemoved x.1 x.2).foldl receive l=
      {l with children := (xs.map Prod.fst).foldl Ordered.erase l.children} := by
  induction xs generalizing l with
  | nil => rfl
  | cons x xs ih => exact ih (l.receive (.childRemoved x.1 x.2))

theorem receive_added (l : Listener Key Leaf) (prev : Key → Option Key)
    (xs : List (Key × FNode Key Leaf)) :
    (xs.map fun x => FDataEvent.childAdded x.1 x.2 (prev x.1)).foldl receive l=
      {l with children := xs.foldl (fun ys x => Ordered.insertAfter (prev x.1) x ys) l.children} := by
  induction xs generalizing l with
  | nil => rfl
  | cons x xs ih => exact ih (l.receive (.childAdded x.1 x.2 (prev x.1)))

theorem receive_changed (l : Listener Key Leaf) (prev : Key → Option Key)
    (xs : List (Key × FNode Key Leaf)) :
    (xs.map fun x => FDataEvent.childChanged x.1 x.2 (prev x.1)).foldl receive l=
      {l with children := xs.foldl Ordered.replace l.children} := by
  induction xs generalizing l with
  | nil => rfl
  | cons x xs ih => exact ih (l.receive (.childChanged x.1 x.2 (prev x.1)))

end Listener

namespace FEventGenerator

variable {changes : List (Key × FChange Key Leaf)} {n m : FNode Key Leaf}

/-- A listener that has the old children has the new ones after the events. -/
theorem Between.receive (h : Between changes n m) (value : Option (FNode Key Leaf))
    (l : Listener Key Leaf) (hl : l.children=n.children) :
    ∃events,generateEventsForChanges changes value m=some events ∧
      events.foldl Listener.receive l=⟨m.children,value.or l.value⟩ := by
  refine ⟨_,h.generateEvents value,?_⟩
  have hcome := filteredChanges_ascending FChange.added h.distinct
  have hkeep := h.notices.keep hcome n.lists_children m.lists_children
  rw [List.foldl_append,List.foldl_append,List.foldl_append,Listener.receive_removed,
    Listener.receive_added,Listener.receive_changed,hl]
  cases value with
  | none => simp [hkeep]
  | some node => simp [hkeep,Listener.receive]

end FEventGenerator

/-- Each child has one entry at most. -/
theorem FChildChangeAccumulator.Accounts.between {changeMap : FChildChangeAccumulator Key Leaf}
    {n m : FNode Key Leaf} (h : Accounts changeMap n.getImmediateChild m.getImmediateChild) :
    FEventGenerator.Between (changeMap.entries.map fun e => (e.1,e.2)) n m := by
  have hlookup (key : Key) (change : FChange Key Leaf)
      (hmem : (key,change)∈changeMap.entries.map fun e => (e.1,e.2)) :
      changeMap.lookup key=some change := by
    obtain ⟨e,he,heq⟩ := List.mem_map.mp hmem
    cases heq
    exact AList.mem_lookup_iff.mpr he
  constructor
  · exact List.pairwise_map.mpr changeMap.nodupKeys.pairwise_ne
  · rintro ⟨key,change⟩ hx
    have hkey := h key
    rwa [hlookup key change hx] at hkey
  · intro key hno
    have hkey := h key
    cases hchange : changeMap.lookup key with
    | none => rwa [hchange] at hkey
    | some change =>
      have hmem : (key,change)∈changeMap.entries.map fun e => (e.1,e.2) :=
        List.mem_map.mpr ⟨⟨key,change⟩,AList.mem_lookup_iff.mp hchange,rfl⟩
      exact absurd rfl (hno _ hmem)

end ShareImage
