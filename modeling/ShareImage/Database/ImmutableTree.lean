import Mathlib.Data.List.Infix
import Mathlib.Order.Lattice

namespace ShareImage

/-- The `children` dictionary of a tree. Each entry has the value and the children of its tree. -/
inductive FChildren (Key Value : Type) where
  | nil
  | cons (key : Key) (value : Option Value) (children rest : FChildren Key Value)
  deriving DecidableEq

/-- An optional value at each path, the children of a tree sorted by key. One order stands for the
comparators of the source, so this is a model for keys of which no two are the same to one of them:
neither canonically equivalent nor compared as the same. -/
structure FImmutableTree (Key Value : Type) where
  value : Option Value := none
  children : FChildren Key Value := .nil
  deriving DecidableEq

namespace FChildren

variable {Key Value : Type}

def isEmpty : FChildren Key Value → Bool
  | .nil => true
  | .cons .. => false

variable [LinearOrder Key]

def get (key : Key) : FChildren Key Value → Option (FImmutableTree Key Value)
  | .nil => none
  | .cons k value children rest => if key=k then some ⟨value,children⟩ else rest.get key

def insertKey (key : Key) (tree : FImmutableTree Key Value) :
    FChildren Key Value → FChildren Key Value
  | .nil => .cons key tree.value tree.children .nil
  | .cons k value children rest =>
    if key<k then .cons key tree.value tree.children (.cons k value children rest)
    else if key=k then .cons k tree.value tree.children rest
    else .cons k value children (rest.insertKey key tree)

def removeKey (key : Key) : FChildren Key Value → FChildren Key Value
  | .nil => .nil
  | .cons k value children rest =>
    if key=k then rest.removeKey key else .cons k value children (rest.removeKey key)

def keys : FChildren Key Value → List Key
  | .nil => []
  | .cons k _ _ rest => k::rest.keys

/-- The values below, with their paths, depth first. -/
def forEach : FChildren Key Value → List (List Key × Value)
  | .nil => []
  | .cons k value children rest =>
    (children.forEach++value.toList.map fun v => (([] : List Key),v)).map
      (fun w : List Key × Value => (k::w.1,w.2))++rest.forEach

theorem mem_keys (c : FChildren Key Value) (key : Key) : key∈c.keys ↔ (c.get key).isSome=true := by
  induction c with
  | nil => simp [keys,get]
  | cons k value children rest _ ih =>
    rw [keys,List.mem_cons,ih,get]
    by_cases hk : key=k
    · simp [hk]
    · simp [hk]

theorem get_insertKey (c : FChildren Key Value) (j key : Key) (tree : FImmutableTree Key Value) :
    (c.insertKey key tree).get j=if j=key then some tree else c.get j := by
  induction c with
  | nil => rfl
  | cons k value children rest _ ih =>
    unfold insertKey
    split
    · rfl
    · split
      · rename_i hk
        subst hk
        simp only [get]
        split <;> rfl
      · rename_i hk
        by_cases hj : j=k
        · subst hj
          simp [get,Ne.symm hk]
        · simp [get,hj,ih]

theorem get_removeKey (c : FChildren Key Value) (j key : Key) :
    (c.removeKey key).get j=if j=key then none else c.get j := by
  induction c with
  | nil => simp [removeKey,get]
  | cons k value children rest _ ih =>
    unfold removeKey
    by_cases hk : key=k
    · subst hk
      rw [if_pos rfl,ih]
      by_cases hj : j=key
      · simp [hj]
      · simp [get,hj]
    · rw [if_neg hk]
      by_cases hj : j=k
      · subst hj
        simp [get,Ne.symm hk]
      · simp [get,hj,ih]

/-- The keys ascend, and an entry has a value or children, but not both. -/
def Canonical : FChildren Key Value → Prop
  | .nil => True
  | .cons k value children rest => (value.isSome=true ↔ children=.nil) ∧ children.Canonical ∧
    (∀j tree,rest.get j=some tree → k<j) ∧ rest.Canonical

end FChildren

namespace FImmutableTree

variable {Key Value : Type}

def empty : FImmutableTree Key Value := {}

def isEmpty (t : FImmutableTree Key Value) : Bool := t.value.isNone && t.children.isEmpty

theorem eq_empty_of_isEmpty (t : FImmutableTree Key Value) (h : t.isEmpty=true) : t=empty := by
  obtain ⟨value,children⟩ := t
  cases value with
  | some value => contradiction
  | none =>
    cases children with
    | nil => rfl
    | cons => contradiction

variable [LinearOrder Key]

/-- The child at a key, or the empty tree. -/
def child (t : FImmutableTree Key Value) (key : Key) : FImmutableTree Key Value :=
  (t.children.get key).getD empty

def findRootMostValueAndPath (t : FImmutableTree Key Value) (relativePath : List Key) :
    Option (List Key × Value) :=
  match t.value with
  | some value => some ([],value)
  | none =>
    match relativePath with
    | [] => none
    | front::rest =>
      match t.children.get front with
      | none => none
      | some child => (child.findRootMostValueAndPath rest).map fun w => (front::w.1,w.2)

def setValue (t : FImmutableTree Key Value) (newValue : Value) (relativePath : List Key) :
    FImmutableTree Key Value :=
  match relativePath with
  | [] => ⟨some newValue,t.children⟩
  | front::rest => ⟨t.value,t.children.insertKey front ((t.child front).setValue newValue rest)⟩

def setTree (t newTree : FImmutableTree Key Value) (relativePath : List Key) :
    FImmutableTree Key Value :=
  match relativePath with
  | [] => newTree
  | front::rest =>
    let newChild := (t.child front).setTree newTree rest
    if newChild.isEmpty then ⟨t.value,t.children.removeKey front⟩
    else ⟨t.value,t.children.insertKey front newChild⟩

def valueAtPath (t : FImmutableTree Key Value) (relativePath : List Key) : Option Value :=
  match relativePath with
  | [] => t.value
  | front::rest =>
    match t.children.get front with
    | none => none
    | some child => child.valueAtPath rest

def subtreeAtPath (t : FImmutableTree Key Value) (relativePath : List Key) :
    FImmutableTree Key Value :=
  match relativePath with
  | [] => t
  | front::rest =>
    match t.children.get front with
    | none => empty
    | some childTree => childTree.subtreeAtPath rest

def forEach (t : FImmutableTree Key Value) : List (List Key × Value) :=
  t.children.forEach++t.value.toList.map fun v => ([],v)

@[simp] theorem empty_valueAtPath (p : List Key) :
    (empty : FImmutableTree Key Value).valueAtPath p=none := by
  cases p <;> rfl

@[simp] theorem valueAtPath_nil (t : FImmutableTree Key Value) : t.valueAtPath []=t.value := rfl

@[simp] theorem valueAtPath_cons (t : FImmutableTree Key Value) (k : Key) (p : List Key) :
    t.valueAtPath (k::p)=(t.child k).valueAtPath p := by
  unfold child
  simp only [valueAtPath]
  cases t.children.get k with
  | none => simp
  | some child => rfl

theorem child_insertKey (value : Option Value) (c : FChildren Key Value) (j k : Key)
    (u : FImmutableTree Key Value) :
    (mk value (c.insertKey k u)).child j=if j=k then u else (mk value c).child j := by
  unfold child
  rw [c.get_insertKey]
  split <;> rfl

theorem child_removeKey (value : Option Value) (c : FChildren Key Value) (j k : Key) :
    (mk value (c.removeKey k)).child j=if j=k then empty else (mk value c).child j := by
  unfold child
  rw [c.get_removeKey]
  split <;> rfl

theorem setTree_cons (t u : FImmutableTree Key Value) (k : Key) (p : List Key) :
    t.setTree u (k::p)=if ((t.child k).setTree u p).isEmpty then ⟨t.value,t.children.removeKey k⟩
      else ⟨t.value,t.children.insertKey k ((t.child k).setTree u p)⟩ := rfl

theorem child_setTree (t u : FImmutableTree Key Value) (j k : Key) (p : List Key) :
    (t.setTree u (k::p)).child j=if j=k then (t.child k).setTree u p else t.child j := by
  rw [setTree_cons]
  split
  · rename_i hempty
    rw [child_removeKey,eq_empty_of_isEmpty _ hempty]
  · rw [child_insertKey]

theorem value_setTree (t u : FImmutableTree Key Value) (k : Key) (p : List Key) :
    (t.setTree u (k::p)).value=t.value := by
  rw [setTree_cons]
  split <;> rfl

theorem valueAtPath_setValue (t : FImmutableTree Key Value) (x : Value) (p q : List Key) :
    (t.setValue x p).valueAtPath q=if q=p then some x else t.valueAtPath q := by
  induction p generalizing t q with
  | nil =>
    cases q with
    | nil => rfl
    | cons j q =>
      rw [valueAtPath_cons,valueAtPath_cons]
      rfl
  | cons k p ih =>
    cases q with
    | nil => rfl
    | cons j q =>
      rw [valueAtPath_cons,valueAtPath_cons,setValue,child_insertKey]
      by_cases hj : j=k
      · subst hj
        simp [ih]
      · rw [if_neg hj,if_neg (by simp [hj])]

theorem valueAtPath_setTree (t u : FImmutableTree Key Value) (p q : List Key) :
    (t.setTree u p).valueAtPath q=
      if p<+:q then u.valueAtPath (q.drop p.length) else t.valueAtPath q := by
  induction p generalizing t q with
  | nil => simp [setTree]
  | cons k p ih =>
    cases q with
    | nil => simp [value_setTree]
    | cons j q =>
      rw [valueAtPath_cons,valueAtPath_cons,child_setTree]
      by_cases hj : j=k
      · subst hj
        simp [ih,List.cons_prefix_cons]
      · have hkj : ¬k=j := Ne.symm hj
        simp [hj,hkj,List.cons_prefix_cons]

theorem valueAtPath_subtreeAtPath (t : FImmutableTree Key Value) (p q : List Key) :
    (t.subtreeAtPath p).valueAtPath q=t.valueAtPath (p++q) := by
  induction p generalizing t with
  | nil => rfl
  | cons k p ih =>
    rw [List.cons_append,valueAtPath_cons,←ih,child,subtreeAtPath]
    cases t.children.get k with
    | some child => rfl
    | none => cases p <;> simp [subtreeAtPath,empty,FChildren.get]

theorem findRootMost_some (t : FImmutableTree Key Value) (p r : List Key) (value : Value)
    (h : t.findRootMostValueAndPath p=some (r,value)) :
    r<+:p ∧ t.valueAtPath r=some value := by
  induction p generalizing t r with
  | nil =>
    unfold findRootMostValueAndPath at h
    split at h
    · rename_i hvalue
      cases h
      exact ⟨List.prefix_refl _,hvalue⟩
    · contradiction
  | cons k p ih =>
    unfold findRootMostValueAndPath at h
    split at h
    · rename_i hvalue
      cases h
      exact ⟨List.nil_prefix,hvalue⟩
    · simp only at h
      split at h
      · contradiction
      · rename_i child hchild
        obtain ⟨⟨s,x⟩,hs,hw⟩ := Option.map_eq_some_iff.mp h
        obtain ⟨rfl,rfl⟩ := Prod.mk.inj hw
        obtain ⟨hle,hread⟩ := ih child s hs
        refine ⟨List.cons_prefix_cons.mpr ⟨rfl,hle⟩,?_⟩
        rw [valueAtPath_cons,FImmutableTree.child,hchild]
        exact hread

theorem findRootMost_none (t : FImmutableTree Key Value) (p s : List Key)
    (h : t.findRootMostValueAndPath p=none) (hs : s<+:p) : t.valueAtPath s=none := by
  induction p generalizing t s with
  | nil =>
    unfold findRootMostValueAndPath at h
    split at h
    · contradiction
    · rename_i hvalue
      rw [List.prefix_nil.mp hs]
      exact hvalue
  | cons k p ih =>
    unfold findRootMostValueAndPath at h
    split at h
    · contradiction
    · rename_i hvalue
      cases s with
      | nil => exact hvalue
      | cons j s =>
        obtain ⟨rfl,hs'⟩ := List.cons_prefix_cons.mp hs
        rw [valueAtPath_cons,child]
        simp only at h
        split at h
        · rename_i hchild
          rw [hchild]
          exact empty_valueAtPath s
        · rename_i child hchild
          rw [hchild]
          exact ih child s (Option.map_eq_none_iff.mp h) hs'

/-- Values lie at the leaves only, and no subtree is empty. -/
structure Canonical (t : FImmutableTree Key Value) : Prop where
  leaf : t.value.isSome=true → t.children=.nil
  children : t.children.Canonical

theorem empty_canonical : (empty : FImmutableTree Key Value).Canonical := ⟨fun _ => rfl,trivial⟩

theorem leaf_canonical (value : Value) :
    (mk (some value) .nil : FImmutableTree Key Value).Canonical := ⟨fun _ => rfl,trivial⟩

/-- A tree that is not empty makes an entry. -/
theorem Canonical.entry {t : FImmutableTree Key Value} (h : t.Canonical) (hne : t.isEmpty=false) :
    t.value.isSome=true ↔ t.children=.nil := by
  refine ⟨h.leaf,?_⟩
  intro hnil
  rw [isEmpty,hnil] at hne
  simpa [FChildren.isEmpty] using hne

end FImmutableTree

namespace FChildren

variable {Key Value : Type} [LinearOrder Key] {c d : FChildren Key Value}

theorem Canonical.get (h : c.Canonical) (k : Key) (t : FImmutableTree Key Value)
    (ht : c.get k=some t) : t.Canonical ∧ t.isEmpty=false := by
  induction c with
  | nil => contradiction
  | cons key value children rest _ ih =>
    obtain ⟨hentry,hchildren,_,hrest⟩ := h
    simp only [FChildren.get] at ht
    split at ht
    · cases ht
      refine ⟨⟨hentry.mp,hchildren⟩,?_⟩
      cases value with
      | some value => rfl
      | none =>
        cases children with
        | nil => simp at hentry
        | cons => rfl
    · exact ih hrest ht

theorem Canonical.keys_sorted (h : c.Canonical) : c.keys.Pairwise (·<·) := by
  induction c with
  | nil => exact List.Pairwise.nil
  | cons k value children rest _ ih =>
    obtain ⟨_,_,hless,hrest⟩ := h
    refine List.pairwise_cons.mpr ⟨?_,ih hrest⟩
    intro j hj
    obtain ⟨tree,htree⟩ := Option.isSome_iff_exists.mp ((rest.mem_keys j).mp hj)
    exact hless j tree htree

theorem Canonical.insertKey (h : c.Canonical) (k : Key) (t : FImmutableTree Key Value)
    (ht : t.Canonical) (hne : t.isEmpty=false) : (c.insertKey k t).Canonical := by
  induction c with
  | nil => exact ⟨ht.entry hne,ht.children,by simp [FChildren.get],trivial⟩
  | cons key value children rest _ ih =>
    obtain ⟨hentry,hchildren,hless,hrest⟩ := h
    unfold FChildren.insertKey
    split
    · rename_i hk
      refine ⟨ht.entry hne,ht.children,?_,hentry,hchildren,hless,hrest⟩
      intro j tree hj
      simp only [FChildren.get] at hj
      split at hj
      · rename_i hjk
        exact hjk ▸ hk
      · exact hk.trans (hless j tree hj)
    · split
      · exact ⟨ht.entry hne,ht.children,hless,hrest⟩
      · rename_i hk hne'
        have hkey : key<k := lt_of_le_of_ne (not_lt.mp hk) (Ne.symm hne')
        refine ⟨hentry,hchildren,?_,ih hrest⟩
        intro j tree hj
        rw [get_insertKey] at hj
        split at hj
        · rename_i hjk
          exact hjk ▸ hkey
        · exact hless j tree hj

theorem Canonical.removeKey (h : c.Canonical) (k : Key) : (c.removeKey k).Canonical := by
  induction c with
  | nil => trivial
  | cons key value children rest _ ih =>
    obtain ⟨hentry,hchildren,hless,hrest⟩ := h
    unfold FChildren.removeKey
    split
    · exact ih hrest
    · refine ⟨hentry,hchildren,?_,ih hrest⟩
      intro j tree hj
      rw [get_removeKey] at hj
      split at hj
      · contradiction
      · exact hless j tree hj

theorem valueAtPath_self (key : Key) (value : Option Value) (children rest : FChildren Key Value)
    (p : List Key) : (FImmutableTree.mk none (.cons key value children rest)).valueAtPath (key::p)=
      (FImmutableTree.mk value children).valueAtPath p := by
  simp [FImmutableTree.child,FChildren.get]

theorem valueAtPath_rest (key k : Key) (value : Option Value) (children rest : FChildren Key Value)
    (p : List Key) (hk : k≠key) :
    (FImmutableTree.mk none (.cons key value children rest)).valueAtPath (k::p)=
      (FImmutableTree.mk none rest).valueAtPath (k::p) := by
  simp [FImmutableTree.child,FChildren.get,hk]

theorem valueAtPath_above (key : Key) (hkey : ∀j tree,c.get j=some tree → key<j) (p : List Key) :
    (FImmutableTree.mk none c).valueAtPath (key::p)=none := by
  have hnone : c.get key=none := by
    cases hget : c.get key with
    | none => rfl
    | some tree => exact absurd (hkey key tree hget) (lt_irrefl key)
  rw [FImmutableTree.valueAtPath_cons,FImmutableTree.child,hnone]
  exact FImmutableTree.empty_valueAtPath p

/-- At each entry or below it lies a value. -/
theorem Canonical.exists_value (key : Key) (value : Option Value)
    (children rest : FChildren Key Value) (h : (cons key value children rest).Canonical) :
    ∃p x,(FImmutableTree.mk value children).valueAtPath p=some x := by
  induction children generalizing key value rest with
  | nil =>
    have hsome : value.isSome=true := h.1.mpr rfl
    obtain ⟨x,hx⟩ := Option.isSome_iff_exists.mp hsome
    exact ⟨[],x,hx⟩
  | cons k v below more ih _ =>
    obtain ⟨p,x,hx⟩ := ih k v more h.2.1
    refine ⟨k::p,x,?_⟩
    rw [FImmutableTree.valueAtPath_cons]
    simpa [FImmutableTree.child,FChildren.get] using hx

theorem Canonical.le_of_get (key : Key) (value : Option Value)
    (children rest : FChildren Key Value) (h : (cons key value children rest).Canonical) (j : Key)
    (tree : FImmutableTree Key Value) (hj : (cons key value children rest).get j=some tree) :
    key≤j := by
  simp only [FChildren.get] at hj
  split at hj
  · rename_i hjk
    exact le_of_eq hjk.symm
  · exact le_of_lt (h.2.2.1 j tree hj)

/-- The first key of canonical children is not below that of others with the same values. -/
theorem Canonical.first_le (key key' : Key) (value value' : Option Value)
    (children rest children' rest' : FChildren Key Value)
    (hc : (cons key value children rest).Canonical)
    (hd : (cons key' value' children' rest').Canonical)
    (h : ∀k p,(FImmutableTree.mk none (cons key value children rest)).valueAtPath (k::p)=
      (FImmutableTree.mk none (cons key' value' children' rest')).valueAtPath (k::p)) :
    key'≤key := by
  by_contra hlt
  obtain ⟨p,x,hx⟩ := Canonical.exists_value key value children rest hc
  have hread := h key p
  have habove := valueAtPath_above key
    (fun j tree hj => lt_of_lt_of_le (not_le.mp hlt) (hd.le_of_get _ _ _ _ j tree hj)) p
  rw [valueAtPath_self,hx,habove] at hread
  contradiction

/-- Canonical children with the same values are the same. -/
theorem Canonical.ext (hc : c.Canonical) (hd : d.Canonical)
    (h : ∀k p,(FImmutableTree.mk none c).valueAtPath (k::p)=
      (FImmutableTree.mk none d).valueAtPath (k::p)) : c=d := by
  induction c generalizing d with
  | nil =>
    cases d with
    | nil => rfl
    | cons key value children rest =>
      obtain ⟨p,x,hx⟩ := Canonical.exists_value key value children rest hd
      have hread := h key p
      rw [valueAtPath_self,hx] at hread
      simp [FImmutableTree.child,FChildren.get] at hread
  | cons key value children rest ihchildren ihrest =>
    cases d with
    | nil =>
      obtain ⟨p,x,hx⟩ := Canonical.exists_value key value children rest hc
      have hread := h key p
      rw [valueAtPath_self,hx] at hread
      simp [FImmutableTree.child,FChildren.get] at hread
    | cons key' value' children' rest' =>
      have hkey : key'=key := le_antisymm (Canonical.first_le _ _ _ _ _ _ _ _ hc hd h)
        (Canonical.first_le _ _ _ _ _ _ _ _ hd hc fun k p => (h k p).symm)
      subst hkey
      obtain ⟨_,hbelow,hless,hmore⟩ := hc
      obtain ⟨_,hbelow',hless',hmore'⟩ := hd
      have hentry (p : List Key) : (FImmutableTree.mk value children).valueAtPath p=
          (FImmutableTree.mk value' children').valueAtPath p := by
        have hread := h key' p
        rwa [valueAtPath_self,valueAtPath_self] at hread
      have hvalue : value=value' := hentry []
      have hchildren : children=children' := by
        apply ihchildren hbelow hbelow'
        intro k p
        have hread := hentry (k::p)
        rwa [FImmutableTree.valueAtPath_cons,FImmutableTree.valueAtPath_cons] at hread ⊢
      have hrest : rest=rest' := by
        apply ihrest hmore hmore'
        intro k p
        by_cases hk : k=key'
        · subst hk
          rw [valueAtPath_above k hless,valueAtPath_above k hless']
        · have hread := h k p
          rwa [valueAtPath_rest key' k _ _ _ p hk,valueAtPath_rest key' k _ _ _ p hk] at hread
      rw [hvalue,hchildren,hrest]

/-- What is enumerated are the values, at their paths. -/
theorem Canonical.mem_forEach (h : c.Canonical) (p : List Key) (x : Value) :
    (p,x)∈c.forEach ↔ ∃k q,p=k::q ∧ (FImmutableTree.mk none c).valueAtPath (k::q)=some x := by
  induction c generalizing p with
  | nil => simp [forEach,FImmutableTree.child,FChildren.get]
  | cons key value children rest ihchildren ihrest =>
    obtain ⟨_,hchildren,hless,hrest⟩ := h
    have hentry (q : List Key) : (q,x)∈children.forEach++value.toList.map (fun v => ([],v)) ↔
        (FImmutableTree.mk value children).valueAtPath q=some x := by
      rw [List.mem_append,ihchildren hchildren]
      cases q with
      | nil => cases value <;> simp [eq_comm]
      | cons k q =>
        have hno : (k::q,x)∉value.toList.map fun v => (([] : List Key),v) := by simp
        simp only [hno,or_false,FImmutableTree.valueAtPath_cons]
        constructor
        · rintro ⟨_,_,⟨⟩,hread⟩
          exact hread
        · intro hread
          exact ⟨k,q,rfl,hread⟩
    unfold forEach
    rw [List.mem_append,ihrest hrest,List.mem_map]
    constructor
    · rintro (⟨⟨q,y⟩,hmem,heq⟩ | ⟨k,q,rfl,hread⟩)
      · obtain ⟨rfl,rfl⟩ := Prod.mk.inj heq
        exact ⟨key,q,rfl,by rw [valueAtPath_self]; exact (hentry q).mp hmem⟩
      · refine ⟨k,q,rfl,?_⟩
        have hk : k≠key := by
          rintro rfl
          rw [valueAtPath_above k hless] at hread
          contradiction
        rw [valueAtPath_rest key k _ _ _ q hk]
        exact hread
    · rintro ⟨k,q,rfl,hread⟩
      by_cases hk : k=key
      · subst hk
        rw [valueAtPath_self] at hread
        exact .inl ⟨(q,x),(hentry q).mpr hread,rfl⟩
      · rw [valueAtPath_rest key k _ _ _ q hk] at hread
        exact .inr ⟨k,q,rfl,hread⟩

/-- The paths that are enumerated are apart from each other. -/
theorem Canonical.forEach_apart (h : c.Canonical) :
    c.forEach.Pairwise fun x y => ¬x.1<+:y.1 ∧ ¬y.1<+:x.1 := by
  induction c with
  | nil => exact List.Pairwise.nil
  | cons key value children rest ihchildren ihrest =>
    obtain ⟨hentry,hchildren,hless,hrest⟩ := h
    unfold forEach
    refine List.pairwise_append.mpr ⟨?_,ihrest hrest,?_⟩
    · apply List.Pairwise.map (R := fun x y => ¬x.1<+:y.1 ∧ ¬y.1<+:x.1)
      · intro x y hxy
        simpa [List.cons_prefix_cons] using hxy
      · cases value with
        | none => simpa using ihchildren hchildren
        | some value =>
          have hnil : children=.nil := hentry.mp rfl
          subst hnil
          simp [forEach]
    · rintro x hx ⟨p,y⟩ hy
      obtain ⟨w,_,rfl⟩ := List.mem_map.mp hx
      obtain ⟨k,q,rfl,hread⟩ := (hrest.mem_forEach p y).mp hy
      have hk : k≠key := by
        rintro rfl
        rw [valueAtPath_above k hless] at hread
        contradiction
      simp [List.cons_prefix_cons,hk,Ne.symm hk]

end FChildren

namespace FImmutableTree

variable {Key Value : Type} [LinearOrder Key] {t u : FImmutableTree Key Value}

theorem Canonical.mem_forEach (h : t.Canonical) (p : List Key) (x : Value) :
    (p,x)∈t.forEach ↔ t.valueAtPath p=some x := by
  unfold forEach
  rw [List.mem_append,h.children.mem_forEach]
  cases p with
  | nil => cases hvalue : t.value <;> simp [hvalue,eq_comm]
  | cons k p =>
    have hno : (k::p,x)∉t.value.toList.map fun v => (([] : List Key),v) := by simp
    simp only [hno,or_false]
    constructor
    · rintro ⟨_,_,⟨⟩,hread⟩
      exact hread
    · intro hread
      exact ⟨k,p,rfl,hread⟩

theorem Canonical.forEach_apart (h : t.Canonical) :
    t.forEach.Pairwise fun x y => ¬x.1<+:y.1 ∧ ¬y.1<+:x.1 := by
  unfold forEach
  cases hvalue : t.value with
  | none => simpa using h.children.forEach_apart
  | some value =>
    have hnil : t.children=.nil := h.leaf (by rw [hvalue]; rfl)
    simp [hnil,FChildren.forEach]

theorem Canonical.ext (ht : t.Canonical) (hu : u.Canonical)
    (h : ∀p,t.valueAtPath p=u.valueAtPath p) : t=u := by
  obtain ⟨value,children⟩ := t
  obtain ⟨value',children'⟩ := u
  have hvalue : value=value' := h []
  have hchildren : children=children' := by
    apply FChildren.Canonical.ext ht.children hu.children
    intro k p
    have hread := h (k::p)
    rwa [valueAtPath_cons,valueAtPath_cons] at hread ⊢
  rw [hvalue,hchildren]

theorem Canonical.child (h : t.Canonical) (k : Key) : (t.child k).Canonical := by
  unfold FImmutableTree.child
  cases hget : t.children.get k with
  | none => exact empty_canonical
  | some tree => exact (h.children.get k tree hget).1

theorem Canonical.subtreeAtPath (h : t.Canonical) (p : List Key) :
    (t.subtreeAtPath p).Canonical := by
  induction p generalizing t with
  | nil => exact h
  | cons k p ih =>
    unfold FImmutableTree.subtreeAtPath
    split
    · exact empty_canonical
    · rename_i tree hget
      exact ih (h.children.get k tree hget).1

/-- Below a value there is none. -/
theorem Canonical.apart (h : t.Canonical) (p q : List Key) (value : Value)
    (hp : t.valueAtPath p=some value) (hpq : p<+:q) (hne : q≠p) : t.valueAtPath q=none := by
  induction p generalizing t q with
  | nil =>
    cases q with
    | nil => exact absurd rfl hne
    | cons k q =>
      have hnil : t.children=.nil := h.leaf (Option.isSome_iff_exists.mpr ⟨value,hp⟩)
      rw [valueAtPath_cons,FImmutableTree.child,hnil]
      exact empty_valueAtPath q
  | cons k p ih =>
    cases q with
    | nil => simp at hpq
    | cons j q =>
      obtain ⟨rfl,hpq'⟩ := List.cons_prefix_cons.mp hpq
      rw [valueAtPath_cons] at hp ⊢
      exact ih (h.child k) q hp hpq' fun hq => hne (hq ▸ rfl)

theorem Canonical.setValue (h : t.Canonical) (x : Value) (p : List Key)
    (hp : (t.valueAtPath p).isSome=true) : (t.setValue x p).Canonical := by
  induction p generalizing t with
  | nil => exact ⟨fun _ => h.leaf hp,h.children⟩
  | cons k p ih =>
    rw [valueAtPath_cons] at hp
    have hchild : ((t.child k).setValue x p).Canonical := ih (h.child k) hp
    have hne : ((t.child k).setValue x p).isEmpty=false := by
      cases hempty : ((t.child k).setValue x p).isEmpty with
      | false => rfl
      | true =>
        have hread := valueAtPath_setValue (t.child k) x p p
        rw [eq_empty_of_isEmpty _ hempty] at hread
        simp at hread
    refine ⟨?_,h.children.insertKey k _ hchild hne⟩
    intro hvalue
    -- a value at the root would leave nothing at the path
    obtain ⟨value,hroot⟩ := Option.isSome_iff_exists.mp hvalue
    have hnone := h.apart [] (k::p) value hroot List.nil_prefix (by simp)
    rw [valueAtPath_cons] at hnone
    rw [hnone] at hp
    contradiction

theorem isEmpty_setTree (p : List Key) (hu : u.isEmpty=true) :
    ((empty : FImmutableTree Key Value).setTree u p).isEmpty=true := by
  induction p with
  | nil => exact hu
  | cons k p ih =>
    rw [setTree_cons]
    have hchild : (empty : FImmutableTree Key Value).child k=empty := rfl
    rw [hchild,if_pos ih]
    rfl

/-- A subtree fits where no value lies above it, and the empty one fits everywhere. -/
theorem Canonical.setTree (ht : t.Canonical) (hu : u.Canonical) (p : List Key)
    (h : u.isEmpty=true ∨ ∀s,s<+:p → s≠p → t.valueAtPath s=none) :
    (t.setTree u p).Canonical := by
  induction p generalizing t with
  | nil => exact hu
  | cons k p ih =>
    have hchild : ((t.child k).setTree u p).Canonical := by
      apply ih (ht.child k)
      rcases h with h | h
      · exact .inl h
      · right
        intro s hs hne
        have hread := h (k::s) (List.cons_prefix_cons.mpr ⟨rfl,hs⟩) (by simpa using hne)
        rwa [valueAtPath_cons] at hread
    rw [setTree_cons]
    split
    · refine ⟨?_,ht.children.removeKey k⟩
      intro hvalue
      change t.children.removeKey k=.nil
      rw [ht.leaf hvalue]
      rfl
    · rename_i hne
      refine ⟨?_,ht.children.insertKey k _ hchild (by simpa using hne)⟩
      intro hvalue
      rcases h with h | h
      · have hnil : t.children=.nil := ht.leaf hvalue
        have hempty : t.child k=FImmutableTree.empty := by
          rw [FImmutableTree.child,hnil]
          rfl
        rw [hempty] at hne
        exact absurd (isEmpty_setTree p h) hne
      · have hroot := h [] List.nil_prefix (by simp)
        change t.value.isSome=true at hvalue
        rw [valueAtPath_nil] at hroot
        rw [hroot] at hvalue
        contradiction

end FImmutableTree

end ShareImage
