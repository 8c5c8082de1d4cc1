import ShareImage.Database.Shown

namespace ShareImage

open Framework

variable {Key Leaf : Type} [LinearOrder Key]

namespace FNode

/-- Updates of a child are updates below it. -/
theorem updateChild_child (n x : FNode Key Leaf) (k : Key) (p : List Key) :
    n.updateChild [k] ((n.getImmediateChild k).updateChild p x)=n.updateChild (k::p) x := by
  cases hleaf : n.isLeafNode with
  | false => simp [updateChild,hleaf]
  | true =>
    have hchild := n.getImmediateChild_leaf hleaf k
    cases hx : x.isEmpty with
    | true =>
      have hkept : (emptyNode : FNode Key Leaf).updateChild p emptyNode=emptyNode := by
        have hsame := (emptyNode : FNode Key Leaf).updateChild_getChild p
        rwa [getChild_emptyNode] at hsame
      rw [x.eq_emptyNode hx,hchild,hkept]
      simp [updateChild,hleaf,show (emptyNode : FNode Key Leaf).isEmpty=true from rfl]
    | false =>
      have hbelow := (n.getImmediateChild k).isEmpty_updateChild x p hx
      simp [updateChild,hleaf,hx,hbelow]

theorem Shaped.updateAll {branches : Set (List Key)} {p : List Key} {n : FNode Key Leaf}
    (h : n.Shaped branches p) (ws : List (List Key × FNode Key Leaf))
    (hws : ∀w∈ws,w.2.Shaped branches (p++w.1)) : (n.updateAll ws).Shaped branches p := by
  induction ws generalizing n with
  | nil => exact h
  | cons w ws ih =>
    exact ih (h.updateChild (hws w List.mem_cons_self)) fun x hx =>
      hws x (List.mem_cons_of_mem w hx)

/-- Writing what is there everywhere changes nothing. -/
theorem updateAll_same (n : FNode Key Leaf) (ws : List (List Key × FNode Key Leaf))
    (h : ∀w∈ws,w.2=n.getChild w.1) : n.updateAll ws=n := by
  induction ws with
  | nil => rfl
  | cons w ws ih =>
    change (n.updateChild w.1 w.2).updateAll ws=n
    rw [h w List.mem_cons_self,updateChild_getChild]
    exact ih fun x hx => h x (List.mem_cons_of_mem w hx)

/-- What is written below makes no leaf. -/
theorem updateAll_below (ws : List (List Key × FNode Key Leaf)) (n : FNode Key Leaf)
    (hn : n.tree.valueAtPath []=none) (hws : ∀w∈ws,w.1≠[]) :
    (n.updateAll ws).tree.valueAtPath []=none := by
  induction ws generalizing n with
  | nil => exact hn
  | cons w ws ih =>
    apply ih (n.updateChild w.1 w.2) _ fun x hx => hws x (List.mem_cons_of_mem w hx)
    have hw : w.1≠[] := hws w List.mem_cons_self
    rw [valueAtPath_updateChild_any,if_neg (by simpa using hw)]
    split
    · rfl
    · exact hn

theorem Within.mono {Key : Type} {branches : Set (List Key)} {p q : List Key}
    (h : Within branches (p++q)) : Within branches p := by
  intro s hs hne
  apply h s (hs.trans (List.prefix_append p q))
  rintro rfl
  exact hne (hs.eq_of_length (le_antisymm hs.length_le (by simp)))

end FNode

theorem FChildren.forEach_ne_nil {Key Value : Type} (c : FChildren Key Value) (p : List Key)
    (x : Value) (h : (p,x)∈c.forEach) : p≠[] := by
  induction c with
  | nil => contradiction
  | cons key value children rest _ ih =>
    rcases List.mem_append.mp h with h | h
    · obtain ⟨y,_,heq⟩ := List.mem_map.mp h
      cases heq
      exact List.cons_ne_nil _ _
    · exact ih h

theorem FChildren.mem_forEach_of_get {Value : Type} (c : FChildren Key Value) (key : Key)
    (t : FImmutableTree Key Value) (ht : c.get key=some t) (p : List Key) (x : Value)
    (h : (p,x)∈t.forEach) : (key::p,x)∈c.forEach := by
  induction c with
  | nil => contradiction
  | cons k value children rest _ ih =>
    rw [get] at ht
    split at ht
    · rename_i hk
      cases ht
      exact List.mem_append_left _ (List.mem_map.mpr ⟨(p,x),h,by rw [hk]⟩)
    · exact List.mem_append_right _ (ih ht)

/-- Any value is among those that are gone through. -/
theorem FImmutableTree.mem_forEach_of_value {Value : Type} (t : FImmutableTree Key Value)
    (p : List Key) (x : Value) (h : t.valueAtPath p=some x) : (p,x)∈t.forEach := by
  induction p generalizing t with
  | nil =>
    rw [valueAtPath_nil] at h
    simp [forEach,h]
  | cons key p ih =>
    rw [valueAtPath_cons,child] at h
    cases hget : t.children.get key with
    | none => simp [hget] at h
    | some tree =>
      rw [hget,Option.getD_some] at h
      exact List.mem_append_left _ (t.children.mem_forEach_of_get key tree hget p x (ih tree h))

namespace FCompoundWrite

/-- What holds of all that is written, each at its path. -/
def Holds (Q : List Key → FNode Key Leaf → Prop) (w : FCompoundWrite Key Leaf) : Prop :=
  ∀q x,w.writeTree.valueAtPath q=some x → Q q x

/-- All that is written may be put where it goes. -/
def Fits (branches : Set (List Key)) (p : List Key) (w : FCompoundWrite Key Leaf) : Prop :=
  w.Holds fun q x => x.Fits branches (p++q)

variable {Q : List Key → FNode Key Leaf → Prop} {branches : Set (List Key)} {p : List Key}
  {w : FCompoundWrite Key Leaf}

theorem holds_emptyWrite (Q : List Key → FNode Key Leaf → Prop) :
    (emptyWrite : FCompoundWrite Key Leaf).Holds Q := by
  intro q x hx
  rw [show (emptyWrite : FCompoundWrite Key Leaf).writeTree.valueAtPath q=none from
    FImmutableTree.empty_valueAtPath q] at hx
  contradiction

theorem Holds.addWrite (h : w.Holds Q)
    (hQ : ∀q c y x,Q q y → Q (q++c) x → Q q (y.updateChild c x)) (x : FNode Key Leaf)
    (c : List Key) (hx : Q c x) : (w.addWrite x c).Holds Q := by
  intro q y hy
  have hread : (w.overlay.put graft c x).read q=some y := by
    rw [←overlay_addWrite]
    exact hy
  by_cases hcovers : w.overlay.Covers c
  · rw [Overlay.put_covered _ _ _ _ hcovers] at hread
    split at hread
    · rename_i hqc
      obtain ⟨value,hvalue,rfl⟩ := Option.map_eq_some_iff.mp hread
      obtain ⟨c,rfl⟩ := hqc
      apply hQ q _ value x (h q value hvalue)
      rwa [List.drop_left]
    · exact h q y hread
  · rw [Overlay.put_free _ _ _ _ hcovers] at hread
    split at hread
    · rename_i hqc
      cases hread
      exact hqc ▸ hx
    · split at hread
      · contradiction
      · exact h q y hread

theorem Holds.addWrites (h : w.Holds Q)
    (hQ : ∀q c y x,Q q y → Q (q++c) x → Q q (y.updateChild c x))
    (ws : List (List Key × FNode Key Leaf)) (hws : ∀x∈ws,Q x.1 x.2) :
    (ws.foldl (fun w x => w.addWrite x.2 x.1) w).Holds Q := by
  induction ws generalizing w with
  | nil => exact h
  | cons x ws ih =>
    exact ih (h.addWrite hQ x.2 x.1 (hws x List.mem_cons_self)) fun y hy =>
      hws y (List.mem_cons_of_mem x hy)

theorem holds_iff : w.Holds Q ↔ ∀x∈w.enumerateWrites,Q x.1 x.2 := by
  constructor
  · intro h x hx
    exact h x.1 x.2 ((w.canonical.mem_forEach x.1 x.2).mp hx)
  · intro h q x hx
    exact h (q,x) ((w.canonical.mem_forEach q x).mpr hx)

/-- The merge at a path below, as the view lays it out. -/
def laid (w : FCompoundWrite Key Leaf) (c : List Key) : FCompoundWrite Key Leaf :=
  if c.isEmpty then w else emptyWrite.addCompoundWrite w c

theorem Holds.laid {c : List Key} (h : w.Holds fun q => Q (c++q))
    (hQ : ∀q c y x,Q q y → Q (q++c) x → Q q (y.updateChild c x)) :
    (w.laid c).Holds Q := by
  unfold FCompoundWrite.laid
  split
  · rename_i hc
    rw [List.isEmpty_iff.mp hc] at h
    exact h
  · have hadded : emptyWrite.addCompoundWrite w c=
        (w.enumerateWrites.map fun x => (c++x.1,x.2)).foldl (fun w x => w.addWrite x.2 x.1)
          emptyWrite := by
      rw [List.foldl_map]
      rfl
    rw [hadded]
    apply (holds_emptyWrite Q).addWrites hQ
    intro x hx
    obtain ⟨y,hy,rfl⟩ := List.mem_map.mp hx
    exact holds_iff.mp h y hy

theorem fits_updateChild (branches : Set (List Key)) (p q c : List Key) (y x : FNode Key Leaf)
    (hy : y.Fits branches (p++q)) (hx : x.Fits branches (p++(q++c))) :
    (y.updateChild c x).Fits branches (p++q) := by
  refine ⟨hy.1,hy.2.updateChild ?_⟩
  rw [List.append_assoc]
  exact hx.2

theorem Fits.laid {c : List Key} (h : w.Fits branches (p++c)) :
    (w.laid c).Fits branches p := by
  apply Holds.laid _ (fits_updateChild branches p)
  intro q x hx
  rw [←List.append_assoc]
  exact h q x hx

theorem Fits.applyToNode (h : w.Fits branches p) (n : FNode Key Leaf)
    (hn : n.Shaped branches p) : (w.applyToNode n).Shaped branches p := by
  rw [applyToNode_eq]
  exact hn.updateAll _ fun x hx => (holds_iff.mp h x hx).2

theorem Fits.openIn (h : w.Fits branches p) {n : FNode Key Leaf} (hn : n.Shaped branches p) :
    w.OpenIn n := fun q x hq => hn.isOpen (h q x hq).1

theorem mem_childCompoundWrites (key : Key) (u : FCompoundWrite Key Leaf)
    (h : (key,u)∈w.childCompoundWrites) :
    u.writeTree=w.writeTree.child key ∧ u.isEmpty=false := by
  obtain ⟨_,hkey,heq⟩ := List.mem_map.mp h
  cases heq
  refine ⟨rfl,?_⟩
  obtain ⟨tree,htree⟩ := Option.isSome_iff_exists.mp ((w.writeTree.children.mem_keys key).mp hkey)
  have hchild : w.writeTree.child key=tree := by simp [FImmutableTree.child,htree]
  change (w.writeTree.child key).isEmpty=false
  rw [hchild]
  exact (w.canonical.children.get key tree htree).2

/-- A write that is not empty has something in it. -/
theorem exists_read (u : FCompoundWrite Key Leaf) (h : u.isEmpty=false) :
    ∃q x,u.writeTree.valueAtPath q=some x := by
  by_contra hnone
  have hempty : u=emptyWrite := by
    apply overlay_injective
    rw [overlay_emptyWrite]
    ext1
    funext q
    exact Option.eq_none_iff_forall_ne_some.mpr fun x hx => hnone ⟨q,x,hx⟩
  rw [hempty] at h
  contradiction

theorem Fits.child (h : w.Fits branches p) (key : Key) (u : FCompoundWrite Key Leaf)
    (hu : (key,u)∈w.childCompoundWrites) :
    u.Fits branches (p++[key]) ∧ FNode.Within branches (p++[key]) := by
  obtain ⟨htree,hempty⟩ := mem_childCompoundWrites key u hu
  have hfits : u.Fits branches (p++[key]) := by
    intro q x hx
    rw [htree,←FImmutableTree.valueAtPath_cons] at hx
    simpa using h (key::q) x hx
  obtain ⟨q,x,hx⟩ := u.exists_read hempty
  exact ⟨hfits,(hfits q x hx).1.mono⟩

theorem laid_root (c : List Key) (h : w.overlay.read []=none) :
    (w.laid c).overlay.read []=none := by
  unfold FCompoundWrite.laid
  split
  · exact h
  · rename_i hc
    cases hread : (emptyWrite.addCompoundWrite w c).overlay.read [] with
    | none => rfl
    | some x =>
      rw [overlay_addCompoundWrite,overlay_emptyWrite] at hread
      obtain ⟨y,hy,hnil⟩ := Overlay.read_layer _ [] x hread
      obtain ⟨z,_,rfl⟩ := List.mem_map.mp hy
      exact absurd (List.append_eq_nil_iff.mp hnil).1 (by simpa using hc)

theorem laid_covers (c q : List Key) (h : w.overlay.Covers q) :
    (w.laid c).overlay.Covers (c++q) := by
  unfold FCompoundWrite.laid
  split
  · rename_i hc
    rw [List.isEmpty_iff.mp hc]
    exact h
  · obtain ⟨s,x,hs,hx⟩ := h
    have hwritten : (s,x)∈w.enumerateWrites := (w.canonical.mem_forEach s x).mpr hx
    have hcovers : (emptyWrite.addCompoundWrite w c).overlay.Covers (c++s) := by
      rw [overlay_addCompoundWrite]
      exact Overlay.layer_covers _ _ (c++s,x) (List.mem_map_of_mem hwritten)
    obtain ⟨t,y,ht,hy⟩ := hcovers
    exact ⟨t,y,ht.trans ((List.prefix_append_right_inj c).mpr hs),hy⟩

theorem Fits.laid_applyToNode {c : List Key} (h : w.Fits branches (p++c)) {n : FNode Key Leaf}
    (hn : n.Shaped branches p) :
    (w.laid c).applyToNode n=n.updateAll (w.enumerateWrites.map fun x => (c++x.1,x.2)) := by
  unfold FCompoundWrite.laid
  split
  · rename_i hc
    rw [List.isEmpty_iff.mp hc,applyToNode_eq,FNode.updateAll,List.foldl_map]
    rfl
  · have hadded : emptyWrite.addCompoundWrite w c=
        (w.enumerateWrites.map fun x => (c++x.1,x.2)).foldl (fun w x => w.addWrite x.2 x.1)
          emptyWrite := by
      rw [List.foldl_map]
      rfl
    rw [hadded,applyToNode_addWrites _ _ _ (openIn_emptyWrite n)]
    · rfl
    · intro x hx
      obtain ⟨y,hy,rfl⟩ := List.mem_map.mp hx
      have hwithin := (holds_iff.mp h y hy).1
      rw [List.append_assoc] at hwithin
      exact hn.isOpen hwithin

/-- A child with a write in it is among those that are gone through. -/
theorem mem_children_of_read (key : Key) (q : List Key) (x : FNode Key Leaf)
    (h : w.writeTree.valueAtPath (key::q)=some x) : ∃u,(key,u)∈w.childCompoundWrites := by
  have hkey : key∈w.writeTree.children.keys := by
    rw [FChildren.mem_keys]
    rw [FImmutableTree.valueAtPath_cons] at h
    cases hget : w.writeTree.children.get key with
    | some tree => rfl
    | none =>
      rw [FImmutableTree.child,hget] at h
      exact absurd h (by simp [FImmutableTree.empty_valueAtPath])
  exact ⟨_,List.mem_map_of_mem hkey⟩

/-- The writes in a child, applied to it. -/
theorem Fits.applyToNode_child (h : w.Fits branches p) {n : FNode Key Leaf}
    (hn : n.Shaped branches p) (hroot : w.overlay.read []=none) (key : Key)
    (u : FCompoundWrite Key Leaf) (hu : (key,u)∈w.childCompoundWrites) :
    u.applyToNode (n.getImmediateChild key)=(w.applyToNode n).getImmediateChild key := by
  obtain ⟨htree,_⟩ := mem_childCompoundWrites key u hu
  have hread (q : List Key) : u.overlay.read q=w.overlay.read (key::q) := by
    change u.writeTree.valueAtPath q=w.writeTree.valueAtPath (key::q)
    rw [htree,FImmutableTree.valueAtPath_cons]
  have hvalue (m : FNode Key Leaf) (q : List Key) :
      (m.getImmediateChild key).tree.valueAtPath q=m.tree.valueAtPath (key::q) :=
    m.valueAtPath_getChild [key] q
  apply applyToNode_unique
  · exact (h.child key u hu).1.openIn (hn.getChild (c := [key]))
  · intro r x q hr hrq
    rw [hread] at hr
    rw [hvalue,w.applyToNode_covered n x (key::r) (key::q) hr (List.cons_prefix_cons.mpr ⟨rfl,hrq⟩)]
    rfl
  · intro q hq
    rw [hvalue,hvalue,w.applyToNode_free n (key::q) (h.openIn hn)]
    rintro ⟨s,x,hs,hx⟩
    cases s with
    | nil =>
      rw [hroot] at hx
      contradiction
    | cons k s =>
      obtain ⟨rfl,hsq⟩ := List.cons_prefix_cons.mp hs
      exact hq ⟨s,x,hsq,(hread s).trans hx⟩

/-- Where no child has a write on the way, the data stay. -/
theorem Fits.applyToNode_free_children (h : w.Fits branches p) {n : FNode Key Leaf}
    (hn : n.Shaped branches p) (hroot : w.overlay.read []=none) (q : List Key)
    (hq : ∀key s x,w.writeTree.valueAtPath (key::s)=some x → ¬key::s<+:q) :
    (w.applyToNode n).tree.valueAtPath q=n.tree.valueAtPath q := by
  apply w.applyToNode_free n q (h.openIn hn)
  rintro ⟨s,x,hs,hx⟩
  cases s with
  | nil =>
    rw [hroot] at hx
    contradiction
  | cons key s => exact hq key s x hx hs

/-- A child that no write is in stays. -/
theorem Fits.applyToNode_other (h : w.Fits branches p) {n : FNode Key Leaf}
    (hn : n.Shaped branches p) (hroot : w.overlay.read []=none) (key : Key)
    (hkey : ∀u,(key,u)∉w.childCompoundWrites) :
    n.getImmediateChild key=(w.applyToNode n).getImmediateChild key := by
  apply FNode.ext_leaves
  intro s
  have hkept := h.applyToNode_free_children hn hroot (key::s) ?_
  · rw [FImmutableTree.valueAtPath_cons,FImmutableTree.valueAtPath_cons] at hkept
    exact hkept.symm
  · intro k t x hx hks
    obtain ⟨rfl,_⟩ := List.cons_prefix_cons.mp hks
    obtain ⟨u,hu⟩ := mem_children_of_read k t x hx
    exact hkey u hu

/-- A child is made when its turn comes, and stays. -/
theorem Fits.updateAll_child (h : w.Fits branches p) {n : FNode Key Leaf}
    (hn : n.Shaped branches p) (hroot : w.overlay.read []=none)
    (xs : List (Key × FCompoundWrite Key Leaf)) (hxs : ∀x∈xs,x∈w.childCompoundWrites)
    (m : FNode Key Leaf) (key : Key)
    (hkey : m.getImmediateChild key=(w.applyToNode n).getImmediateChild key ∨ ∃x∈xs,x.1=key) :
    (m.updateAll (xs.map fun x =>
      ([x.1],x.2.applyToNode (n.getImmediateChild x.1)))).getImmediateChild key=
        (w.applyToNode n).getImmediateChild key := by
  induction xs generalizing m with
  | nil => exact hkey.resolve_right (by simp)
  | cons y ys ih =>
    apply ih fun x hx => hxs x (List.mem_cons_of_mem y hx)
    have hy := h.applyToNode_child hn hroot y.1 y.2 (hxs y List.mem_cons_self)
    change (m.updateChild [y.1] (y.2.applyToNode (n.getImmediateChild y.1))).getImmediateChild
      key=_ ∨ _
    rw [FNode.getImmediateChild_updateChild,hy]
    by_cases hk : key=y.1
    · subst hk
      exact .inl (Function.update_self ..)
    · rw [Function.update_of_ne hk]
      refine hkey.imp id ?_
      rintro ⟨x,hx,rfl⟩
      rcases List.mem_cons.mp hx with rfl | hx
      · exact absurd rfl hk
      · exact ⟨x,hx,rfl⟩

/-- With a write in a child there is no leaf. -/
theorem Fits.not_leaf (h : w.Fits branches p) {n : FNode Key Leaf} (hn : n.Shaped branches p)
    (key : Key) (u : FCompoundWrite Key Leaf) (hu : (key,u)∈w.childCompoundWrites) :
    n.tree.valueAtPath []=none := by
  obtain ⟨htree,hempty⟩ := mem_childCompoundWrites key u hu
  obtain ⟨r,y,hr⟩ := u.exists_read hempty
  rw [htree,←FImmutableTree.valueAtPath_cons] at hr
  exact h.openIn hn (key::r) y hr [] List.nil_prefix (List.cons_ne_nil _ _).symm

/-- Child by child the whole is made. -/
theorem Fits.updateAll_children (h : w.Fits branches p) {n : FNode Key Leaf}
    (hn : n.Shaped branches p) (hroot : w.overlay.read []=none)
    (xs : List (Key × FCompoundWrite Key Leaf)) (hxs : ∀x,x∈xs ↔ x∈w.childCompoundWrites) :
    n.updateAll (xs.map fun x => ([x.1],x.2.applyToNode (n.getImmediateChild x.1)))=
      w.applyToNode n := by
  apply FNode.ext_leaves
  intro q
  cases q with
  | nil =>
    rw [h.applyToNode_free_children hn hroot [] fun key s x _ hs => by simp at hs]
    cases xs with
    | nil => rfl
    | cons x xs =>
      have hnone := h.not_leaf hn x.1 x.2 ((hxs x).mp List.mem_cons_self)
      rw [hnone]
      apply FNode.updateAll_below _ n hnone
      intro y hy
      obtain ⟨z,_,rfl⟩ := List.mem_map.mp hy
      exact List.cons_ne_nil _ _
  | cons key q =>
    have hturn : n.getImmediateChild key=(w.applyToNode n).getImmediateChild key ∨
        ∃x∈xs,x.1=key := by
      by_cases hkey : ∃x∈xs,x.1=key
      · exact .inr hkey
      · exact .inl (h.applyToNode_other hn hroot key fun u hu =>
          hkey ⟨(key,u),(hxs (key,u)).mpr hu,rfl⟩)
    have hsame := h.updateAll_child hn hroot xs (fun x hx => (hxs x).mp hx) n key hturn
    have hvalue := congrArg (fun m => m.tree.valueAtPath q) hsame
    rw [FImmutableTree.valueAtPath_cons,FImmutableTree.valueAtPath_cons]
    exact hvalue

end FCompoundWrite

namespace FViewProcessor

/-- The places that an answered write was for, below the path of the operation. -/
def affected (c : List Key) (affectedTree : FImmutableTree Key Unit) : Set (List Key) :=
  {p | ∃q,affectedTree.valueAtPath q=some () ∧ c++q=p}

theorem affected_below (c : List Key) (affectedTree : FImmutableTree Key Unit) (p : List Key)
    (hp : p∈affected c affectedTree) : c<+:p := by
  obtain ⟨q,_,rfl⟩ := hp
  exact List.prefix_append c q

/-- What the server has at the places of an answered write. -/
def restored (n : FNode Key Leaf) (c : List Key) (affectedTree : FImmutableTree Key Unit) :
    FCompoundWrite Key Leaf :=
  (affectedTree.forEach.map fun x => (x.1,n.getChild (c++x.1))).foldl
    (fun w x => w.addWrite x.2 x.1) .emptyWrite

theorem restored_laid (n : FNode Key Leaf) (c : List Key) (affectedTree : FImmutableTree Key Unit) :
    ((restored n c affectedTree).laid c).Holds fun q x => x=n.getChild q := by
  have hput (q d : List Key) (y x : FNode Key Leaf) (hy : y=n.getChild q)
      (hx : x=n.getChild (q++d)) : y.updateChild d x=n.getChild q := by
    rw [hy,hx,FNode.getChild_append,FNode.updateChild_getChild]
  apply FCompoundWrite.Holds.laid _ hput
  apply (FCompoundWrite.holds_emptyWrite fun q x => x=n.getChild (c++q)).addWrites
  · intro q d y x hy hx
    exact hput (c++q) d y x hy (by rw [hx,List.append_assoc])
  · intro x hx
    obtain ⟨y,_,rfl⟩ := List.mem_map.mp hx
    rfl

/-- Each place that was written has its child among those that are put in again. -/
theorem restored_covers (n : FNode Key Leaf) (c : List Key) (affectedTree : FImmutableTree Key Unit)
    (hroot : affectedTree.value.isSome=false) (p : List Key) (hp : p∈affected c affectedTree) :
    ∃x∈((restored n c affectedTree).laid c).childCompoundWrites,[x.1]<+:p := by
  obtain ⟨q,hq,rfl⟩ := hp
  have hmem := affectedTree.mem_forEach_of_value q () hq
  have hlayer : (restored n c affectedTree).overlay=Overlay.empty.layer FCompoundWrite.graft
      (affectedTree.forEach.map fun x => (x.1,n.getChild (c++x.1))) := by
    rw [restored,FCompoundWrite.overlay_addWrites,FCompoundWrite.overlay_emptyWrite]
  have hnone : (restored n c affectedTree).overlay.read []=none := by
    cases hread : (restored n c affectedTree).overlay.read [] with
    | none => rfl
    | some x =>
      rw [hlayer] at hread
      obtain ⟨w,hw,hnil⟩ := Overlay.read_layer _ [] x hread
      obtain ⟨y,hy,rfl⟩ := List.mem_map.mp hw
      have hvalue : affectedTree.value=none := by simpa using hroot
      rw [FImmutableTree.forEach,hvalue] at hy
      exact absurd hnil (affectedTree.children.forEach_ne_nil y.1 y.2 (by simpa using hy))
  have hcovers : (restored n c affectedTree).overlay.Covers q := by
    rw [hlayer]
    exact Overlay.layer_covers _ _ (q,n.getChild (c++q)) (List.mem_map_of_mem hmem)
  obtain ⟨s,x,hs,hx⟩ := FCompoundWrite.laid_covers c q hcovers
  cases s with
  | nil =>
    rw [FCompoundWrite.laid_root c hnone] at hx
    contradiction
  | cons key s =>
    obtain ⟨u,hu⟩ := FCompoundWrite.mem_children_of_read key s x hx
    exact ⟨(key,u),hu,(List.prefix_append [key] s).trans hs⟩

end FViewProcessor

end ShareImage
