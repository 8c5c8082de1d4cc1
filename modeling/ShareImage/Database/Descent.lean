import ShareImage.Database.Fitting

namespace ShareImage

variable {Key Leaf : Type} [LinearOrder Key]

theorem FNode.getChild_updateAll_above (n : FNode Key Leaf) (p : List Key)
    (ws : List (List Key × FNode Key Leaf)) :
    (n.updateAll (ws.map fun x => (p++x.1,x.2))).getChild p=(n.getChild p).updateAll ws := by
  induction ws generalizing n with
  | nil => rfl
  | cons w ws ih =>
    refine (ih (n.updateChild (p++w.1) w.2)).trans ?_
    rw [getChild_updateChild_above]
    rfl

theorem FNode.AgreesOff.child {paths below : Set (List Key)} {n m : FNode Key Leaf}
    (h : n.AgreesOff paths m) (key : Key)
    (hpaths : ∀q,(∀p∈below,¬p<+:q) → ∀p∈paths,¬p<+:key::q) :
    (n.getImmediateChild key).AgreesOff below (m.getImmediateChild key) := by
  intro q hq
  have hsame := h (key::q) (hpaths q hq)
  rw [FImmutableTree.valueAtPath_cons,FImmutableTree.valueAtPath_cons] at hsame
  exact hsame

theorem FCompoundWrite.rootWrite_of_incomplete (w : FCompoundWrite Key Leaf)
    (h : w.hasCompleteWriteAtPath []=false) : w.rootWrite=none := by
  cases hvalue : w.rootWrite with
  | none => rfl
  | some y =>
    have hcovered : w.completeNodeAtPath []=some y := by
      rw [FCompoundWrite.rootWrite] at hvalue
      simp [FCompoundWrite.completeNodeAtPath,FImmutableTree.findRootMostValueAndPath,hvalue,
        FNode.getChild]
    rw [FCompoundWrite.hasCompleteWriteAtPath,hcovered] at h
    contradiction

namespace FOperation

/-- What an overwrite or a merge writes, each with its whole path. -/
def updates : FOperation Key Leaf → List (List Key × FNode Key Leaf)
  | .overwrite _ path snap => [(path,snap)]
  | .merge _ path children => children.enumerateWrites.map fun x => (path++x.1,x.2)
  | _ => []

/-- It may be done at the path. -/
def Fits (branches : Set (List Key)) (p : List Key) (o : FOperation Key Leaf) : Prop :=
  ∀x∈o.updates,x.2.Fits branches (p++x.1)

/-- An overwrite or a merge, of the user or of the server, who merges only below a path. -/
inductive Writes (fromUser : Bool) : FOperation Key Leaf → Prop where
  | overwrite (path : List Key) (snap : FNode Key Leaf) :
    Writes fromUser (.overwrite fromUser path snap)
  | merge (path : List Key) (children : FCompoundWrite Key Leaf)
    (hroot : fromUser=false → children.rootWrite=none) :
    Writes fromUser (.merge fromUser path children)

theorem forView_cons (o : FOperation Key Leaf) (key : Key) (rest : List Key) :
    o.forView (key::rest)=if o.path.head?=none ∨ o.path.head?=some key then
      (o.operationForChild key).bind fun child => child.forView rest else none := by
  rw [forView]
  cases o.path with
  | nil => rfl
  | cons front path =>
    dsimp only
    split
    · rename_i hfront
      rw [if_pos (.inr (by rw [hfront]; rfl))]
    · rename_i hfront
      rw [if_neg (by simpa using hfront)]

theorem path_le_updates (o : FOperation Key Leaf) : ∀x∈o.updates,o.path<+:x.1 := by
  cases o with
  | overwrite _ path snap =>
    intro x hx
    obtain rfl := List.mem_singleton.mp hx
    exact List.prefix_refl path
  | merge _ path children =>
    intro x hx
    obtain ⟨y,_,rfl⟩ := List.mem_map.mp hx
    exact List.prefix_append path y.1
  | _ => simp [updates]

variable {branches : Set (List Key)} {fromUser : Bool}

/-- What the child operation, if any, does to the child. -/
def Does (fromUser : Bool) (branches : Set (List Key)) (p : List Key) (n m : FNode Key Leaf) :
    Option (FOperation Key Leaf) → Prop
  | some o => o.Writes fromUser ∧ o.Fits branches p ∧ m=n.updateAll o.updates
  | none => m=n

theorem updateAll_merge (children : FCompoundWrite Key Leaf) (n : FNode Key Leaf) :
    n.updateAll (FOperation.merge fromUser [] children).updates=children.applyToNode n := by
  rw [FCompoundWrite.applyToNode_eq,updates,FNode.updateAll,List.foldl_map]
  rfl

theorem overwrite_does (path : List Key) (snap : FNode Key Leaf) (p : List Key) (key : Key)
    (hsnap : snap.Fits branches (p++path)) (hwithin : FNode.Within branches (p++[key]))
    (hfront : path.head?=none ∨ path.head?=some key) (n : FNode Key Leaf) :
    Does fromUser branches (p++[key]) (n.getImmediateChild key)
      ((n.updateChild path snap).getImmediateChild key)
      ((FOperation.overwrite fromUser path snap).operationForChild key) := by
  cases path with
  | nil =>
    refine ⟨.overwrite [] _,?_,rfl⟩
    intro x hx
    obtain rfl := List.mem_singleton.mp hx
    rw [List.append_nil] at hsnap ⊢
    exact ⟨hwithin,hsnap.2.getChild (c := [key])⟩
  | cons front path =>
    obtain rfl : front=key := by simpa using hfront
    refine ⟨.overwrite path snap,?_,n.getChild_updateChild_above snap [front] path⟩
    intro x hx
    obtain rfl := List.mem_singleton.mp hx
    simpa using hsnap

/-- A merge at the place itself is an overwrite of a child that it covers, and else a merge there. -/
theorem merge_does (children : FCompoundWrite Key Leaf) (p : List Key) (key : Key)
    (hchildren : children.Fits branches p) (hwithin : FNode.Within branches (p++[key]))
    (n : FNode Key Leaf) (hn : n.Shaped branches p) :
    Does fromUser branches (p++[key]) (n.getImmediateChild key)
      ((children.applyToNode n).getImmediateChild key)
      ((FOperation.merge fromUser [] children).operationForChild key) := by
  unfold operationForChild
  dsimp only
  cases hcomplete : children.completeNodeAtPath [key] with
  | some x =>
    have hchild : children.childCompoundWriteAtPath [key]=FCompoundWrite.root x := by
      simp [FCompoundWrite.childCompoundWriteAtPath,hcomplete]
    have hx := children.getChild_applyToNode n x [key] hcomplete
    have hsome : ¬(FCompoundWrite.root x).isEmpty=true := by
      simp [FCompoundWrite.isEmpty,FCompoundWrite.root,FImmutableTree.isEmpty]
    rw [hchild,if_neg hsome]
    refine ⟨.overwrite [] x,?_,hx⟩
    intro y hy
    obtain rfl := List.mem_singleton.mp hy
    rw [List.append_nil]
    refine ⟨hwithin,?_⟩
    have hshaped := (hchildren.applyToNode n hn).getChild (c := [key])
    rwa [hx] at hshaped
  | none =>
    have hchild := children.applyToNode_child n [key] (hchildren.openIn hn) hcomplete
    have hroot := children.incomplete_child [key] hcomplete
    have hread := fun q => children.read_childCompoundWrite [key] q hcomplete
    generalize children.childCompoundWriteAtPath [key]=u at hchild hroot hread ⊢
    split
    · rename_i hempty
      rw [FCompoundWrite.applyToNode_isEmpty _ _ hempty] at hchild
      exact hchild.symm
    · have hvalue := u.rootWrite_of_incomplete hroot
      rw [hvalue]
      refine ⟨.merge [] u fun _ => hvalue,?_,?_⟩
      · intro x hx
        obtain ⟨y,hy,rfl⟩ := List.mem_map.mp hx
        have hvalueAt : children.writeTree.valueAtPath ([key]++y.1)=some y.2 :=
          (hread y.1).symm.trans ((u.canonical.mem_forEach y.1 y.2).mp hy)
        simpa using hchildren ([key]++y.1) y.2 hvalueAt
      · rw [updateAll_merge]
        exact hchild.symm

theorem operationForChild_does (o : FOperation Key Leaf) (ho : o.Writes fromUser) (p : List Key)
    (key : Key) (hfits : o.Fits branches p) (hwithin : FNode.Within branches (p++[key]))
    (hfront : o.path.head?=none ∨ o.path.head?=some key) (n : FNode Key Leaf)
    (hn : n.Shaped branches p) : Does fromUser branches (p++[key]) (n.getImmediateChild key)
      ((n.updateAll o.updates).getImmediateChild key) (o.operationForChild key) := by
  cases ho with
  | overwrite path snap =>
    have hsnap := hfits (path,snap) (List.mem_singleton_self _)
    exact overwrite_does path snap p key hsnap hwithin hfront n
  | merge path children hmerge =>
    cases path with
    | nil =>
      have hchildren : children.Fits branches p := by
        refine FCompoundWrite.holds_iff.mpr ?_
        intro x hx
        exact hfits x (List.mem_map.mpr ⟨x,hx,rfl⟩)
      rw [updateAll_merge]
      exact merge_does children p key hchildren hwithin n hn
    | cons front path =>
      obtain rfl : front=key := by simpa [FOperation.path] using hfront
      refine ⟨.merge path children hmerge,?_,?_⟩
      · intro x hx
        obtain ⟨y,hy,rfl⟩ := List.mem_map.mp hx
        simpa using hfits (front::path++y.1,y.2) (List.mem_map_of_mem hy)
      · have habove := n.getChild_updateAll_above [front]
          (children.enumerateWrites.map fun x => (path++x.1,x.2))
        rw [List.map_map] at habove
        exact habove

/-- At the path of the view the operation does what the view is given to do. -/
theorem forView_does (P : List Key) (o : FOperation Key Leaf) (ho : o.Writes fromUser)
    (p : List Key) (hfits : o.Fits branches p) (hwithin : FNode.Within branches (p++P))
    (n : FNode Key Leaf) (hn : n.Shaped branches p) :
    Does fromUser branches (p++P) (n.getChild P) ((n.updateAll o.updates).getChild P)
      (o.forView P) := by
  induction P generalizing o p n with
  | nil =>
    rw [List.append_nil]
    exact ⟨ho,hfits,rfl⟩
  | cons key rest ih =>
    have hassoc : p++key::rest=(p++[key])++rest := by simp
    rw [hassoc] at hwithin ⊢
    rw [forView_cons]
    split
    · rename_i hfront
      have hchild := operationForChild_does o ho p key hfits hwithin.mono hfront n hn
      cases hoperation : o.operationForChild key with
      | none =>
        rw [hoperation] at hchild
        exact congrArg (fun m => m.getChild rest) hchild
      | some child =>
        rw [hoperation] at hchild
        obtain ⟨hwrites,hchildFits,hsame⟩ := hchild
        have hrest := ih child hwrites (p++[key]) hchildFits hwithin (n.getImmediateChild key)
          (hn.getChild (c := [key]))
        rw [←hsame] at hrest
        exact hrest
    · rename_i hfront
      apply FCompoundWrite.getChild_foldl_apart
      intro x hx
      have hpath := o.path_le_updates x hx
      cases hopath : o.path with
      | nil => simp [hopath] at hfront
      | cons front path =>
        rw [hopath] at hfront hpath
        have hne : front≠key := by simpa using hfront
        obtain ⟨y,hy⟩ := hpath
        rw [←hy]
        constructor
        · intro hle
          exact hne (by simpa using (List.cons_prefix_cons.mp hle).1)
        · intro hle
          exact hne (List.cons_prefix_cons.mp hle).1.symm

theorem forView_listenComplete (P c : List Key) (o : FOperation Key Leaf)
    (h : (listenComplete c : FOperation Key Leaf).forView P=some o) : ∃d,o=.listenComplete d := by
  induction P generalizing c with
  | nil =>
    cases h
    exact ⟨c,rfl⟩
  | cons key rest ih =>
    rw [forView_cons] at h
    split at h
    · cases c with
      | nil => exact ih [] h
      | cons _ c => exact ih c h
    · contradiction

open FViewProcessor

/-- What is left to mend in the child, as the child operation tells. -/
def Mends (revert : Bool) (n m : FNode Key Leaf) : Option (FOperation Key Leaf) → Prop
  | some o => ∃c tree,o=.ackUserWrite c tree revert ∧ n.AgreesOff (affected c tree) m
  | none => n=m

theorem forView_ack (P c : List Key) (affectedTree : FImmutableTree Key Unit) (revert : Bool)
    (n m : FNode Key Leaf) (h : n.AgreesOff (affected c affectedTree) m) :
    Mends revert (n.getChild P) (m.getChild P)
      ((ackUserWrite c affectedTree revert : FOperation Key Leaf).forView P) := by
  induction P generalizing c affectedTree n m with
  | nil => exact ⟨c,affectedTree,rfl,h⟩
  | cons key rest ih =>
    rw [forView_cons]
    cases c with
    | nil =>
      rw [if_pos (.inl rfl)]
      cases hvalue : affectedTree.value with
      | some _ =>
        have hchild : (ackUserWrite [] affectedTree revert : FOperation Key Leaf).operationForChild
            key=some (.ackUserWrite [] affectedTree revert) := by
          simp [operationForChild,hvalue]
        rw [hchild]
        refine ih [] affectedTree _ _ (h.child key ?_)
        intro q hq
        exact absurd List.nil_prefix (hq [] ⟨[],hvalue,rfl⟩)
      | none =>
        have hchild : (ackUserWrite [] affectedTree revert : FOperation Key Leaf).operationForChild
            key=some (.ackUserWrite [] (affectedTree.subtreeAtPath [key]) revert) := by
          simp [operationForChild,hvalue]
        rw [hchild]
        refine ih [] (affectedTree.subtreeAtPath [key]) _ _ (h.child key ?_)
        rintro q hq _ ⟨p,hp,rfl⟩ hpq
        cases p with
        | nil =>
          rw [FImmutableTree.valueAtPath_nil,hvalue] at hp
          contradiction
        | cons k p =>
          obtain ⟨rfl,hbelow⟩ : k=key ∧ p<+:q := List.cons_prefix_cons.mp hpq
          refine hq p ⟨p,?_,rfl⟩ hbelow
          rw [FImmutableTree.valueAtPath_subtreeAtPath]
          exact hp
    | cons front c =>
      by_cases hfront : front=key
      · subst hfront
        rw [if_pos (.inr rfl)]
        refine ih c affectedTree _ _ (h.child front ?_)
        rintro q hq _ ⟨p,hp,rfl⟩ hpq
        exact hq (c++p) ⟨p,hp,rfl⟩ (List.cons_prefix_cons.mp hpq).2
      · rw [if_neg (by simpa [FOperation.path] using hfront)]
        have hchild : (n.getImmediateChild key).AgreesOff ∅ (m.getImmediateChild key) := by
          apply h.child key
          rintro q _ _ ⟨p,_,rfl⟩ hpq
          exact hfront (List.cons_prefix_cons.mp hpq).1
        exact congrArg (fun x => x.getChild rest) hchild.eq

end FOperation

end ShareImage
