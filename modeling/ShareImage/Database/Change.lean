import ShareImage.Database.Locality
import Mathlib.Data.List.AList

namespace ShareImage

variable {Key Leaf : Type} [LinearOrder Key]

instance [DecidableEq Leaf] : DecidableEq (FNode Key Leaf) :=
  fun n m => decidable_of_iff (n.tree=m.tree) FNode.ext_iff.symm

namespace FNode

def hasChild (n : FNode Key Leaf) (childName : Key) : Bool := !(n.getImmediateChild childName).isEmpty

/-- The children that are enumerated, by key. -/
def children (n : FNode Key Leaf) : List (Key × FNode Key Leaf) :=
  n.tree.children.keys.map fun key => (key,n.getImmediateChild key)

theorem hasChild_iff (n : FNode Key Leaf) (key : Key) :
    n.hasChild key=true ↔ (n.getImmediateChild key).isEmpty=false := by
  simp [hasChild]

theorem child_of_not_hasChild (n : FNode Key Leaf) (key : Key) (h : ¬n.hasChild key=true) :
    n.getImmediateChild key=emptyNode := by
  rw [hasChild_iff,Bool.not_eq_false] at h
  exact eq_emptyNode _ h

theorem mem_children (n : FNode Key Leaf) (key : Key) (x : FNode Key Leaf) :
    (key,x)∈n.children ↔ x.isEmpty=false ∧ n.getImmediateChild key=x := by
  have hkeys : key∈n.tree.children.keys ↔ (n.getImmediateChild key).isEmpty=false := by
    rw [n.tree.children.mem_keys]
    cases hget : n.tree.children.get key with
    | none =>
      have hchild : n.getImmediateChild key=emptyNode := by
        ext1
        simp [getImmediateChild,FImmutableTree.child,hget,emptyNode]
      rw [hchild]
      exact iff_of_false (by simp) (by intro h; contradiction)
    | some tree =>
      have hchild : (n.getImmediateChild key).tree=tree := by
        simp [getImmediateChild,FImmutableTree.child,hget]
      rw [isEmpty,hchild,(n.canonical.children.get key tree hget).2]
      exact iff_of_true rfl rfl
  simp only [children,List.mem_map,Prod.mk.injEq]
  constructor
  · rintro ⟨j,hj,rfl,rfl⟩
    exact ⟨hkeys.mp hj,rfl⟩
  · rintro ⟨hx,rfl⟩
    exact ⟨key,hkeys.mpr hx,rfl,rfl⟩

theorem getImmediateChild_updateChild (n x : FNode Key Leaf) (key : Key) :
    (n.updateChild [key] x).getImmediateChild=Function.update n.getImmediateChild key x := by
  funext j
  by_cases hj : j=key
  · subst hj
    rw [Function.update_self]
    exact n.getChild_updateChild x [j]
  · rw [Function.update_of_ne hj]
    exact n.getChild_updateChild_apart x [key] [j] (by simpa using Ne.symm hj) (by simpa using hj)

theorem children_keys (n : FNode Key Leaf) : n.children.map Prod.fst=n.tree.children.keys := by
  rw [children,List.map_map]
  exact List.map_id _

theorem children_sorted (n : FNode Key Leaf) : n.children.Pairwise fun x y => x.1<y.1 := by
  rw [←List.pairwise_map,children_keys]
  exact n.canonical.children.keys_sorted

end FNode

/-- What has become of a child. -/
inductive FChange (Key Leaf : Type) [LinearOrder Key] where
  | childAdded (node : FNode Key Leaf)
  | childChanged (node oldNode : FNode Key Leaf)
  | childRemoved (node : FNode Key Leaf)

namespace FChange

def old : FChange Key Leaf → FNode Key Leaf
  | .childAdded _ => .emptyNode
  | .childChanged _ oldNode => oldNode
  | .childRemoved node => node

def new : FChange Key Leaf → FNode Key Leaf
  | .childAdded node => node
  | .childChanged node _ => node
  | .childRemoved _ => .emptyNode

/-- A change between nodes that is what it is called. -/
def WellFormed : FChange Key Leaf → Prop
  | .childAdded node => node.isEmpty=false
  | .childChanged node oldNode => node.isEmpty=false ∧ oldNode.isEmpty=false
  | .childRemoved node => node.isEmpty=false

/-- The changes lead from some children to others, one at a time. -/
def Leads : List (Key × FChange Key Leaf) → (Key → FNode Key Leaf) → (Key → FNode Key Leaf) → Prop
  | [],f,g => f=g
  | (key,change)::rest,f,g =>
    change.WellFormed ∧ f key=change.old ∧ Leads rest (Function.update f key change.new) g

theorem Leads.append {xs ys : List (Key × FChange Key Leaf)} {f g h : Key → FNode Key Leaf}
    (hxs : Leads xs f g) (hys : Leads ys g h) : Leads (xs++ys) f h := by
  induction xs generalizing f with
  | nil =>
    cases hxs
    exact hys
  | cons x xs ih => exact ⟨hxs.1,hxs.2.1,ih hxs.2.2⟩

/-- Changes of different children may come in any order. -/
theorem leads_of_distinct (xs : List (Key × FChange Key Leaf)) (f g : Key → FNode Key Leaf)
    (hxs : xs.Pairwise fun x y => x.1≠y.1)
    (h : ∀x∈xs,x.2.WellFormed ∧ f x.1=x.2.old ∧ g x.1=x.2.new)
    (hrest : ∀key,(∀x∈xs,x.1≠key) → f key=g key) : Leads xs f g := by
  induction xs generalizing f with
  | nil =>
    funext key
    exact hrest key (by simp)
  | cons x xs ih =>
    obtain ⟨hx,hxs⟩ := List.pairwise_cons.mp hxs
    obtain ⟨hwell,hold,hnew⟩ := h x List.mem_cons_self
    refine ⟨hwell,hold,ih _ hxs ?_ ?_⟩
    · intro y hy
      rw [Function.update_of_ne (Ne.symm (hx y hy))]
      exact h y (List.mem_cons_of_mem x hy)
    · intro key hkey
      by_cases hk : key=x.1
      · rw [hk,Function.update_self,hnew]
      · rw [Function.update_of_ne hk]
        apply hrest
        intro y hy
        rcases List.mem_cons.mp hy with rfl | hy
        · exact Ne.symm hk
        · exact hkey y hy

end FChange

/-- The changes by key. -/
abbrev FChildChangeAccumulator (Key Leaf : Type) [LinearOrder Key] :=
  AList fun _ : Key => FChange Key Leaf

namespace FChildChangeAccumulator

/-- `none` where it throws for an illegal combination of changes. -/
def trackChildChange (changeMap : FChildChangeAccumulator Key Leaf) (childKey : Key)
    (change : FChange Key Leaf) : Option (FChildChangeAccumulator Key Leaf) :=
  match changeMap.lookup childKey with
  | none => some (changeMap.insert childKey change)
  | some oldChange =>
    match change,oldChange with
    | .childAdded node,.childRemoved oldNode =>
      some (changeMap.insert childKey (.childChanged node oldNode))
    | .childRemoved _,.childAdded _ => some (changeMap.erase childKey)
    | .childRemoved _,.childChanged _ oldNode =>
      some (changeMap.insert childKey (.childRemoved oldNode))
    | .childChanged node _,.childAdded _ => some (changeMap.insert childKey (.childAdded node))
    | .childChanged node _,.childChanged _ oldNode =>
      some (changeMap.insert childKey (.childChanged node oldNode))
    | _,_ => none

def trackAll (changeMap : FChildChangeAccumulator Key Leaf)
    (changes : List (Key × FChange Key Leaf)) : Option (FChildChangeAccumulator Key Leaf) :=
  changes.foldlM (fun changeMap x => trackChildChange changeMap x.1 x.2) changeMap

/-- What the changes so far add up to. A child that is changed back counts as changed. -/
def Accounts (changeMap : FChildChangeAccumulator Key Leaf) (f g : Key → FNode Key Leaf) : Prop :=
  ∀key,match changeMap.lookup key with
    | none => f key=g key
    | some change => change.WellFormed ∧ f key=change.old ∧ g key=change.new

theorem accounts_empty (f : Key → FNode Key Leaf) : Accounts ∅ f f := by
  intro key
  rw [AList.lookup_empty]

/-- What is tracked of a change is what it makes of the one before. -/
theorem Accounts.track {changeMap : FChildChangeAccumulator Key Leaf} {f g : Key → FNode Key Leaf}
    (h : Accounts changeMap f g) (key : Key) (change : FChange Key Leaf)
    (hchange : change.WellFormed) (hold : g key=change.old) :
    ∃next,changeMap.trackChildChange key change=some next ∧
      Accounts next f (Function.update g key change.new) := by
  have hinsert (c : FChange Key Leaf) (hc : c.WellFormed) (hf : f key=c.old)
      (hnew : c.new=change.new) :
      Accounts (changeMap.insert key c) f (Function.update g key change.new) := by
    intro j
    by_cases hj : j=key
    · subst hj
      rw [AList.lookup_insert,Function.update_self]
      exact ⟨hc,hf,hnew.symm⟩
    · rw [AList.lookup_insert_ne hj,Function.update_of_ne hj]
      exact h j
  have hkey := h key
  unfold trackChildChange
  cases hlookup : changeMap.lookup key with
  | none =>
    rw [hlookup] at hkey
    exact ⟨_,rfl,hinsert change hchange (hkey.trans hold) rfl⟩
  | some oldChange =>
    rw [hlookup] at hkey
    obtain ⟨hwell,hf,hg⟩ := hkey
    rw [hg] at hold
    have hempty (x : FNode Key Leaf) (hx : x.isEmpty=false) : x≠.emptyNode := by
      rintro rfl
      contradiction
    cases change with
    | childAdded node =>
      cases oldChange with
      | childAdded x => exact absurd hold (hempty x hwell)
      | childChanged x oldNode => exact absurd hold (hempty x hwell.1)
      | childRemoved oldNode =>
        exact ⟨_,rfl,hinsert (.childChanged node oldNode) ⟨hchange,hwell⟩ hf rfl⟩
    | childChanged node x =>
      cases oldChange with
      | childAdded _ => exact ⟨_,rfl,hinsert (.childAdded node) hchange.1 hf rfl⟩
      | childChanged _ oldNode =>
        exact ⟨_,rfl,hinsert (.childChanged node oldNode) ⟨hchange.1,hwell.2⟩ hf rfl⟩
      | childRemoved _ => exact absurd hold.symm (hempty x hchange.2)
    | childRemoved x =>
      cases oldChange with
      | childAdded _ =>
        refine ⟨_,rfl,?_⟩
        intro j
        by_cases hj : j=key
        · subst hj
          rw [AList.lookup_erase,Function.update_self]
          exact hf
        · rw [AList.lookup_erase_ne hj,Function.update_of_ne hj]
          exact h j
      | childChanged _ oldNode =>
        exact ⟨_,rfl,hinsert (.childRemoved oldNode) hwell.2 hf rfl⟩
      | childRemoved _ => exact absurd hold.symm (hempty x hchange)

/-- Tracking never meets an illegal combination of changes. -/
theorem Accounts.trackAll {changeMap : FChildChangeAccumulator Key Leaf}
    {f g h : Key → FNode Key Leaf} (hmap : Accounts changeMap f g)
    (changes : List (Key × FChange Key Leaf)) (hchanges : FChange.Leads changes g h) :
    ∃next,changeMap.trackAll changes=some next ∧ Accounts next f h := by
  induction changes generalizing changeMap g with
  | nil =>
    cases hchanges
    exact ⟨changeMap,rfl,hmap⟩
  | cons x changes ih =>
    obtain ⟨hwell,hold,hrest⟩ := hchanges
    obtain ⟨next,hnext,haccounts⟩ := hmap.track x.1 x.2 hwell hold
    obtain ⟨last,hlast,hall⟩ := ih haccounts hrest
    refine ⟨last,?_,hall⟩
    rw [FChildChangeAccumulator.trackAll,List.foldlM_cons,hnext]
    exact hlast

end FChildChangeAccumulator

namespace FIndexedFilter

variable [DecidableEq Leaf]

/-- The changed node, and what is tracked. -/
def updateChildIn (node : FNode Key Leaf) (childKey : Key) (newChildSnap : FNode Key Leaf)
    (affectedPath : List Key) : FNode Key Leaf × List (Key × FChange Key Leaf) :=
  let oldChildSnap := node.getImmediateChild childKey
  if oldChildSnap.getChild affectedPath=newChildSnap.getChild affectedPath ∧
      oldChildSnap.isEmpty=newChildSnap.isEmpty then (node,[])
  else
    (if node.isLeafNode && newChildSnap.isEmpty then node
      else node.updateImmediateChild childKey newChildSnap,
    if newChildSnap.isEmpty then
      if node.hasChild childKey then [(childKey,.childRemoved oldChildSnap)] else []
    else if oldChildSnap.isEmpty then [(childKey,.childAdded newChildSnap)]
    else [(childKey,.childChanged newChildSnap oldChildSnap)])

/-- The block of `updateFullNode` for each new child. -/
def trackNewChild (oldSnap : FNode Key Leaf) (childKey : Key) (childNode : FNode Key Leaf) :
    Option (FChange Key Leaf) :=
  if oldSnap.hasChild childKey then
    if oldSnap.getImmediateChild childKey=childNode then none
    else some (.childChanged childNode (oldSnap.getImmediateChild childKey))
  else some (.childAdded childNode)

def updateFullNode (oldSnap newSnap : FNode Key Leaf) :
    FNode Key Leaf × List (Key × FChange Key Leaf) :=
  (newSnap,
    (oldSnap.children.filter fun x => !newSnap.hasChild x.1).map
        (fun x => (x.1,FChange.childRemoved x.2))++
      newSnap.children.filterMap fun x => (trackNewChild oldSnap x.1 x.2).map fun c => (x.1,c))

/-- The changed node has the new child, where this is the old one but for the affected path. -/
theorem updateChildIn_node (node : FNode Key Leaf) (childKey : Key) (newChildSnap : FNode Key Leaf)
    (affectedPath : List Key) (h : (node.getImmediateChild childKey).getChild affectedPath=
      newChildSnap.getChild affectedPath → node.getImmediateChild childKey=newChildSnap) :
    (updateChildIn node childKey newChildSnap affectedPath).1=
      node.updateChild [childKey] newChildSnap := by
  unfold updateChildIn
  dsimp only
  split
  · rename_i hsame
    rw [←h hsame.1]
    exact (node.updateChild_getChild [childKey]).symm
  · rfl

/-- What is tracked leads from the old children to the new ones. -/
theorem updateChildIn_leads (node : FNode Key Leaf) (childKey : Key)
    (newChildSnap : FNode Key Leaf) (affectedPath : List Key) :
    FChange.Leads (updateChildIn node childKey newChildSnap affectedPath).2 node.getImmediateChild
      (updateChildIn node childKey newChildSnap affectedPath).1.getImmediateChild := by
  have hnode := node.getImmediateChild_updateChild newChildSnap childKey
  unfold updateChildIn
  dsimp only
  split
  · rfl
  · rename_i hchanged
    change FChange.Leads _ _ (node.updateChild [childKey] newChildSnap).getImmediateChild
    rw [hnode]
    cases hnew : newChildSnap.isEmpty with
    | true =>
      have hold : (node.getImmediateChild childKey).isEmpty=false := by
        cases hold : (node.getImmediateChild childKey).isEmpty with
        | false => rfl
        | true =>
          rw [FNode.getChild_empty _ hnew,FNode.getChild_empty _ hold,hnew,hold] at hchanged
          exact absurd ⟨rfl,rfl⟩ hchanged
      rw [if_pos rfl,if_pos ((node.hasChild_iff childKey).mpr hold),newChildSnap.eq_emptyNode hnew]
      exact ⟨hold,rfl,rfl⟩
    | false =>
      rw [if_neg (by simp)]
      cases hold : (node.getImmediateChild childKey).isEmpty with
      | true => exact ⟨hnew,FNode.eq_emptyNode _ hold,rfl⟩
      | false => exact ⟨⟨hnew,hold⟩,rfl,rfl⟩

theorem trackNewChild_some (oldSnap newSnap : FNode Key Leaf) (key : Key)
    (hnew : (newSnap.getImmediateChild key).isEmpty=false) (change : FChange Key Leaf)
    (h : trackNewChild oldSnap key (newSnap.getImmediateChild key)=some change) :
    change.WellFormed ∧ oldSnap.getImmediateChild key=change.old ∧
      newSnap.getImmediateChild key=change.new := by
  unfold trackNewChild at h
  split at h
  · rename_i hold
    split at h
    · contradiction
    · cases h
      exact ⟨⟨hnew,(oldSnap.hasChild_iff key).mp hold⟩,rfl,rfl⟩
  · rename_i hold
    cases h
    exact ⟨hnew,oldSnap.child_of_not_hasChild key hold,rfl⟩

theorem updateFullNode_leads (oldSnap newSnap : FNode Key Leaf) :
    FChange.Leads (updateFullNode oldSnap newSnap).2 oldSnap.getImmediateChild
      newSnap.getImmediateChild := by
  have hdistinct (n : FNode Key Leaf) : n.children.Pairwise fun x y => x.1≠y.1 :=
    n.children_sorted.imp ne_of_lt
  have hremoved (key : Key) (change : FChange Key Leaf) : (key,change)∈(oldSnap.children.filter
        fun x => !newSnap.hasChild x.1).map (fun x => (x.1,FChange.childRemoved x.2)) ↔
      newSnap.hasChild key=false ∧ (oldSnap.getImmediateChild key).isEmpty=false ∧
        change=.childRemoved (oldSnap.getImmediateChild key) := by
    simp only [List.mem_map,List.mem_filter,Prod.mk.injEq,Bool.not_eq_true',Prod.exists]
    constructor
    · rintro ⟨j,node,⟨hmem,hno⟩,rfl,rfl⟩
      obtain ⟨hnode,rfl⟩ := (oldSnap.mem_children j node).mp hmem
      exact ⟨hno,hnode,rfl⟩
    · rintro ⟨hno,hold,rfl⟩
      exact ⟨key,_,⟨(oldSnap.mem_children key _).mpr ⟨hold,rfl⟩,hno⟩,rfl,rfl⟩
  have hkept (key : Key) (change : FChange Key Leaf) : (key,change)∈newSnap.children.filterMap
        (fun x => (trackNewChild oldSnap x.1 x.2).map fun c => (x.1,c)) ↔
      (newSnap.getImmediateChild key).isEmpty=false ∧
        trackNewChild oldSnap key (newSnap.getImmediateChild key)=some change := by
    simp only [List.mem_filterMap,Option.map_eq_some_iff,Prod.mk.injEq,Prod.exists]
    constructor
    · rintro ⟨j,node,hmem,c,hc,rfl,rfl⟩
      obtain ⟨hnode,rfl⟩ := (newSnap.mem_children j node).mp hmem
      exact ⟨hnode,hc⟩
    · rintro ⟨hnew,hchange⟩
      exact ⟨key,_,(newSnap.mem_children key _).mpr ⟨hnew,rfl⟩,change,hchange,rfl,rfl⟩
  apply FChange.leads_of_distinct
  · refine List.pairwise_append.mpr ⟨?_,?_,?_⟩
    · exact List.pairwise_map.mpr ((hdistinct oldSnap).filter _)
    · refine List.pairwise_filterMap.mpr ((hdistinct newSnap).imp ?_)
      intro x y hne u hu v hv
      obtain ⟨_,_,rfl⟩ := Option.map_eq_some_iff.mp hu
      obtain ⟨_,_,rfl⟩ := Option.map_eq_some_iff.mp hv
      exact hne
    · rintro ⟨key,_⟩ hx ⟨_,_⟩ hy rfl
      have hno := ((hremoved key _).mp hx).1
      rw [(newSnap.hasChild_iff key).mpr ((hkept key _).mp hy).1] at hno
      contradiction
  · rintro ⟨key,change⟩ hx
    rcases List.mem_append.mp hx with hx | hx
    · obtain ⟨hno,hold,rfl⟩ := (hremoved key change).mp hx
      exact ⟨hold,rfl,newSnap.child_of_not_hasChild key (by simp [hno])⟩
    · obtain ⟨hnew,hchange⟩ := (hkept key change).mp hx
      exact trackNewChild_some oldSnap newSnap key hnew change hchange
  · intro key hkey
    have hnone (change : FChange Key Leaf) : (key,change)∉(updateFullNode oldSnap newSnap).2 :=
      fun hmem => hkey (key,change) hmem rfl
    by_cases hnew : newSnap.hasChild key=true
    · have htracked (change : FChange Key Leaf) :
          trackNewChild oldSnap key (newSnap.getImmediateChild key)≠some change := fun hchange =>
        hnone change (List.mem_append_right _
          ((hkept key change).mpr ⟨(newSnap.hasChild_iff key).mp hnew,hchange⟩))
      unfold trackNewChild at htracked
      split at htracked
      · split at htracked
        · assumption
        · exact absurd rfl (htracked _)
      · exact absurd rfl (htracked _)
    · rw [newSnap.child_of_not_hasChild key hnew]
      by_cases hold : oldSnap.hasChild key=true
      · exact absurd (List.mem_append_left _ ((hremoved key _).mpr
          ⟨by simpa using hnew,(oldSnap.hasChild_iff key).mp hold,rfl⟩)) (hnone _)
      · exact oldSnap.child_of_not_hasChild key hold

end FIndexedFilter

end ShareImage
