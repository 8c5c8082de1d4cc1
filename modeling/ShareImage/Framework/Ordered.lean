import Mathlib.Data.List.Sort
import Mathlib.Order.Lattice

namespace Framework.Ordered

variable {Key Value : Type*} [LinearOrder Key]

def Ascending (xs : List (Key × Value)) : Prop := xs.Pairwise fun x y => x.1<y.1

def erase (xs : List (Key × Value)) (key : Key) : List (Key × Value) :=
  xs.filter fun x => x.1≠key

def replace (xs : List (Key × Value)) (x : Key × Value) : List (Key × Value) :=
  xs.map fun y => if y.1=x.1 then x else y

/-- The entry goes after that of the previous key, and to the front where there is none. -/
def insertAfter (prev : Option Key) (x : Key × Value) : List (Key × Value) → List (Key × Value)
  | [] => [x]
  | y::ys =>
    match prev with
    | none => x::y::ys
    | some key => if y.1=key then y::x::ys else y::insertAfter (some key) x ys

/-- The last of the keys that is below the key. -/
def predecessor (keys : List Key) (key : Key) : Option Key := (keys.filter fun k => k<key).getLast?

theorem mem_insertAfter (prev : Option Key) (x z : Key × Value) (xs : List (Key × Value)) :
    z∈insertAfter prev x xs ↔ z=x ∨ z∈xs := by
  induction xs with
  | nil => simp [insertAfter]
  | cons y ys ih =>
    cases prev with
    | none => simp [insertAfter]
    | some key =>
      unfold insertAfter
      dsimp only
      split
      · simp only [List.mem_cons]
        tauto
      · simp only [List.mem_cons,ih]
        tauto

theorem predecessor_mem (keys : List Key) (key prev : Key) (h : predecessor keys key=some prev) :
    prev∈keys :=
  List.mem_of_mem_filter (List.mem_of_getLast? h)

/-- After its predecessor an entry is in its place. -/
theorem insertAfter_ascending (xs : List (Key × Value)) (x : Key × Value) (h : Ascending xs)
    (hx : ∀y∈xs,y.1≠x.1) : Ascending (insertAfter (predecessor (xs.map Prod.fst) x.1) x xs) := by
  induction xs with
  | nil => exact List.pairwise_singleton _ _
  | cons y ys ih =>
    obtain ⟨hy,hys⟩ := List.pairwise_cons.mp h
    rcases lt_or_gt_of_ne (hx y List.mem_cons_self) with hlt | hgt
    · have hcons : predecessor ((y::ys).map Prod.fst) x.1=
          some ((predecessor (ys.map Prod.fst) x.1).getD y.1) := by
        simp [predecessor,hlt,List.getLast?_cons]
      rw [hcons]
      unfold insertAfter
      dsimp only
      cases hprev : predecessor (ys.map Prod.fst) x.1 with
      | none =>
        rw [Option.getD_none,if_pos rfl]
        have hrest : ∀z∈ys,x.1<z.1 := by
          intro z hz
          have hnot : ¬z.1<x.1 := by
            intro hzx
            have hmem : z.1∈(ys.map Prod.fst).filter fun k => k<x.1 :=
              List.mem_filter.mpr ⟨List.mem_map_of_mem hz,by simpa using hzx⟩
            rw [predecessor,List.getLast?_eq_none_iff] at hprev
            rw [hprev] at hmem
            contradiction
          exact lt_of_le_of_ne (not_lt.mp hnot) (Ne.symm (hx z (List.mem_cons_of_mem y hz)))
        refine List.pairwise_cons.mpr ⟨?_,List.pairwise_cons.mpr ⟨hrest,hys⟩⟩
        intro z hz
        rcases List.mem_cons.mp hz with rfl | hz
        · exact hlt
        · exact hy z hz
      | some prev =>
        obtain ⟨z,hz,rfl⟩ := List.mem_map.mp (predecessor_mem _ _ prev hprev)
        rw [Option.getD_some,if_neg (ne_of_lt (hy z hz)),←hprev]
        refine List.pairwise_cons.mpr ⟨?_,ih hys fun u hu => hx u (List.mem_cons_of_mem y hu)⟩
        intro u hu
        rcases (mem_insertAfter _ x u ys).mp hu with rfl | hu
        · exact hlt
        · exact hy u hu
    · have hnone : predecessor ((y::ys).map Prod.fst) x.1=none := by
        rw [predecessor,List.getLast?_eq_none_iff,List.filter_eq_nil_iff]
        intro k hk
        obtain ⟨z,hz,rfl⟩ := List.mem_map.mp hk
        rcases List.mem_cons.mp hz with rfl | hz
        · simpa using le_of_lt hgt
        · simpa using le_of_lt (lt_trans hgt (hy z hz))
      rw [hnone]
      refine List.pairwise_cons.mpr ⟨?_,h⟩
      intro z hz
      rcases List.mem_cons.mp hz with rfl | hz
      · exact hgt
      · exact lt_trans hgt (hy z hz)

/-- The list has the entries of the table, in their order. -/
structure Lists (xs : List (Key × Value)) (f : Key → Option Value) : Prop where
  ascending : Ascending xs
  mem : ∀key value,(key,value)∈xs ↔ f key=some value

variable {xs ys : List (Key × Value)} {f g : Key → Option Value}

theorem Lists.unique (hx : Lists xs f) (hy : Lists ys f) : xs=ys := by
  have hirrefl : Std.Irrefl fun x y : Key × Value => x.1<y.1 := ⟨fun x => lt_irrefl x.1⟩
  have hantisymm : Std.Antisymm fun x y : Key × Value => x.1<y.1 :=
    ⟨fun x y hxy hyx => absurd hyx (lt_asymm hxy)⟩
  apply hx.ascending.eq_of_mem_iff hy.ascending
  rintro ⟨key,value⟩
  rw [hx.mem,hy.mem]

theorem Lists.mem_keys (h : Lists xs f) (key : Key) :
    key∈xs.map Prod.fst ↔ (f key).isSome=true := by
  rw [Option.isSome_iff_exists,List.mem_map]
  constructor
  · rintro ⟨⟨_,value⟩,hmem,rfl⟩
    exact ⟨value,(h.mem _ value).mp hmem⟩
  · rintro ⟨value,hvalue⟩
    exact ⟨(key,value),(h.mem key value).mpr hvalue,rfl⟩

/-- The predecessor depends on the keys below alone. -/
theorem Lists.predecessor_eq (hx : Lists xs f) (hy : Lists ys g) (key : Key)
    (h : ∀k,k<key → (f k).isSome=(g k).isSome) :
    predecessor (xs.map Prod.fst) key=predecessor (ys.map Prod.fst) key := by
  have hsorted (zs : List (Key × Value)) (hz : Ascending zs) :
      ((zs.map Prod.fst).filter fun k => k<key).Pairwise (·<·) :=
    List.Pairwise.filter _ (List.pairwise_map.mpr hz)
  have hkeys : (xs.map Prod.fst).filter (fun k => k<key)=(ys.map Prod.fst).filter fun k => k<key := by
    apply (hsorted xs hx.ascending).eq_of_mem_iff (hsorted ys hy.ascending)
    intro k
    simp only [List.mem_filter,hx.mem_keys,hy.mem_keys,decide_eq_true_eq]
    constructor
    · rintro ⟨hk,hlt⟩
      exact ⟨h k hlt ▸ hk,hlt⟩
    · rintro ⟨hk,hlt⟩
      exact ⟨(h k hlt).symm ▸ hk,hlt⟩
  rw [predecessor,predecessor,hkeys]

theorem Lists.erase (h : Lists xs f) (key : Key) :
    Lists (erase xs key) (Function.update f key none) := by
  refine ⟨h.ascending.filter _,?_⟩
  intro k value
  by_cases hk : k=key
  · subst hk
    simp [Ordered.erase]
  · simp [Ordered.erase,hk,h.mem]

theorem Lists.replace (h : Lists xs f) (x : Key × Value) (hx : (f x.1).isSome=true) :
    Lists (replace xs x) (Function.update f x.1 (some x.2)) := by
  have hkey (y : Key × Value) : (if y.1=x.1 then x else y).1=y.1 := by
    split
    · rename_i hy
      exact hy.symm
    · rfl
  constructor
  · refine List.pairwise_map.mpr (h.ascending.imp ?_)
    intro y z hyz
    rw [hkey,hkey]
    exact hyz
  · intro k value
    simp only [Ordered.replace,List.mem_map]
    by_cases hk : k=x.1
    · subst hk
      rw [Function.update_self]
      constructor
      · rintro ⟨y,_,hy⟩
        have hy1 := hkey y
        rw [hy] at hy1
        rw [if_pos hy1.symm] at hy
        exact congrArg some (congrArg Prod.snd hy)
      · intro hvalue
        obtain ⟨old,hold⟩ := Option.isSome_iff_exists.mp hx
        refine ⟨(x.1,old),(h.mem x.1 old).mpr hold,?_⟩
        rw [if_pos rfl]
        exact Prod.ext rfl (Option.some.inj hvalue)
    · rw [Function.update_of_ne hk,←h.mem]
      constructor
      · rintro ⟨y,hmem,hy⟩
        have hy1 := hkey y
        rw [hy] at hy1
        rw [if_neg fun heq => hk (hy1.trans heq)] at hy
        exact hy ▸ hmem
      · intro hmem
        exact ⟨(k,value),hmem,if_neg hk⟩

theorem Lists.insert (h : Lists xs f) (x : Key × Value) (hx : f x.1=none) :
    Lists (insertAfter (predecessor (xs.map Prod.fst) x.1) x xs)
      (Function.update f x.1 (some x.2)) := by
  constructor
  · apply insertAfter_ascending xs x h.ascending
    rintro ⟨key,value⟩ hy hkey
    have hsome := (h.mem key value).mp hy
    rw [show key=x.1 from hkey,hx] at hsome
    contradiction
  · intro k value
    rw [mem_insertAfter,h.mem]
    by_cases hk : k=x.1
    · subst hk
      rw [Function.update_self,hx]
      simp [Prod.ext_iff,eq_comm]
    · rw [Function.update_of_ne hk]
      simp [Prod.ext_iff,hk]

theorem Lists.congr (h : Lists xs f) (hfg : ∀key,f key=g key) : Lists xs g :=
  (funext hfg : f=g) ▸ h

/-- What is told of the way from one table to another. An entry may be told to change that stays. -/
structure Notices (f g : Key → Option Value) (gone : List Key)
    (come changed : List (Key × Value)) : Prop where
  gone_none : ∀key∈gone,g key=none
  gone_all : ∀key,g key=none → f key=none ∨ key∈gone
  come_new : ∀x∈come,f x.1=none ∧ g x.1=some x.2
  come_all : ∀key,f key=none → g key=none ∨ key∈come.map Prod.fst
  changed_new : ∀x∈changed,g x.1=some x.2
  changed_all : ∀key,f key=g key ∨ f key=none ∨ g key=none ∨ key∈changed.map Prod.fst

theorem Lists.eraseAll (h : Lists xs f) (gone : List Key) :
    Lists (gone.foldl Ordered.erase xs) fun key => if key∈gone then none else f key := by
  induction gone generalizing xs f with
  | nil => simpa using h
  | cons k gone ih =>
    apply (ih (h.erase k)).congr
    intro key
    by_cases hk : key=k
    · subst hk
      simp
    · simp [hk,Function.update_of_ne]

/-- Entries that come in ascending order find those before them in place. -/
theorem Lists.insertAll (h : Lists xs f) (hy : Lists ys g) (come : List (Key × Value))
    (hascending : Ascending come) (hcome : ∀x∈come,f x.1=none ∧ g x.1=some x.2)
    (hf : ∀key,(f key).isSome=true → (g key).isSome=true)
    (hg : ∀key,(g key).isSome=true → (f key).isSome=true ∨ key∈come.map Prod.fst) :
    ∃u,Lists (come.foldl
        (fun xs x => insertAfter (predecessor (ys.map Prod.fst) x.1) x xs) xs) u ∧
      ∀key,u key=if (f key).isSome then f key else g key := by
  induction come generalizing xs f with
  | nil =>
    refine ⟨f,h,?_⟩
    intro key
    cases hfkey : f key with
    | some value => rfl
    | none =>
      cases hgkey : g key with
      | none => rfl
      | some value => simpa [hfkey,hgkey] using hg key
  | cons x come ih =>
    obtain ⟨hx,hrest⟩ := List.pairwise_cons.mp hascending
    obtain ⟨hfx,hgx⟩ := hcome x List.mem_cons_self
    have hbelow (k : Key) (hk : k<x.1) : (f k).isSome=(g k).isSome := by
      apply Bool.eq_iff_iff.mpr
      refine ⟨hf k,?_⟩
      intro hgk
      refine (hg k hgk).resolve_right ?_
      intro hmem
      rcases List.mem_cons.mp hmem with rfl | hmem
      · exact lt_irrefl _ hk
      · obtain ⟨y,hy,rfl⟩ := List.mem_map.mp hmem
        exact lt_asymm hk (hx y hy)
    have hinsert := h.insert x hfx
    rw [h.predecessor_eq hy x.1 hbelow] at hinsert
    have hcome' (y : Key × Value) (hmem : y∈come) :
        Function.update f x.1 (some x.2) y.1=none ∧ g y.1=some y.2 := by
      rw [Function.update_of_ne (ne_of_gt (hx y hmem))]
      exact hcome y (List.mem_cons_of_mem x hmem)
    have hf' (key : Key) (hkey : (Function.update f x.1 (some x.2) key).isSome=true) :
        (g key).isSome=true := by
      by_cases hk : key=x.1
      · simp [hk,hgx]
      · rw [Function.update_of_ne hk] at hkey
        exact hf key hkey
    have hg' (key : Key) (hkey : (g key).isSome=true) :
        (Function.update f x.1 (some x.2) key).isSome=true ∨ key∈come.map Prod.fst := by
      by_cases hk : key=x.1
      · simp [hk]
      · rw [Function.update_of_ne hk]
        simpa [hk] using hg key hkey
    obtain ⟨u,hu,hkeys⟩ := ih hinsert hrest hcome' hf' hg'
    refine ⟨u,hu,?_⟩
    intro key
    rw [hkeys]
    by_cases hkey : key=x.1
    · subst hkey
      simp [hfx,hgx]
    · simp [Function.update_of_ne hkey]

theorem Lists.replaceAll (h : Lists xs f) (changed : List (Key × Value))
    (hchanged : ∀x∈changed,g x.1=some x.2) (hf : ∀key,(f key).isSome=(g key).isSome)
    (hg : ∀key,f key=g key ∨ key∈changed.map Prod.fst) :
    Lists (changed.foldl Ordered.replace xs) g := by
  induction changed generalizing xs f with
  | nil => exact h.congr fun key => (hg key).resolve_right (by simp)
  | cons x changed ih =>
    have hx : g x.1=some x.2 := hchanged x List.mem_cons_self
    apply ih (h.replace x (by rw [hf,hx]; rfl)) fun y hy => hchanged y (List.mem_cons_of_mem x hy)
    · intro key
      by_cases hk : key=x.1
      · subst hk
        simp [hx]
      · rw [Function.update_of_ne hk,hf]
    · intro key
      by_cases hk : key=x.1
      · subst hk
        simp [hx]
      · rw [Function.update_of_ne hk]
        simpa [hk] using hg key

/-- Kept from the notices, the entries of one table become those of the other. -/
theorem Notices.keep {gone : List Key} {come changed : List (Key × Value)}
    (h : Notices f g gone come changed) (hcome : Ascending come) (hx : Lists xs f)
    (hy : Lists ys g) :
    changed.foldl replace (come.foldl
      (fun xs x => insertAfter (predecessor (ys.map Prod.fst) x.1) x xs) (gone.foldl erase xs))=ys := by
  have hkept (key : Key) (hkey : (if key∈gone then none else f key).isSome=true) :
      (f key).isSome=true ∧ (g key).isSome=true := by
    split at hkey
    · contradiction
    · rename_i hno
      refine ⟨hkey,?_⟩
      cases hgkey : g key with
      | some value => rfl
      | none =>
        rcases h.gone_all key hgkey with hf | hmem
        · rw [hf] at hkey
          contradiction
        · exact absurd hmem hno
  have hfound (key : Key) (hkey : (g key).isSome=true) :
      (if key∈gone then none else f key).isSome=true ∨ key∈come.map Prod.fst := by
    have hno : key∉gone := by
      intro hmem
      rw [h.gone_none key hmem] at hkey
      contradiction
    rw [if_neg hno]
    cases hf : f key with
    | some value => exact .inl rfl
    | none =>
      rcases h.come_all key hf with hg | hmem
      · rw [hg] at hkey
        contradiction
      · exact .inr hmem
  have hnew (x : Key × Value) (hmem : x∈come) :
      (if x.1∈gone then none else f x.1)=none ∧ g x.1=some x.2 := by
    obtain ⟨hf,hg⟩ := h.come_new x hmem
    exact ⟨by simp [hf],hg⟩
  obtain ⟨u,hu,hkeys⟩ := (hx.eraseAll gone).insertAll hy come hcome hnew
    (fun key hkey => (hkept key hkey).2) hfound
  refine Lists.unique (hu.replaceAll changed h.changed_new ?_ ?_) hy
  · intro key
    rw [hkeys]
    by_cases hkey : (if key∈gone then none else f key).isSome=true
    · rw [if_pos hkey,hkey,(hkept key hkey).2]
    · rw [if_neg hkey]
  · intro key
    rw [hkeys]
    by_cases hkey : (if key∈gone then none else f key).isSome=true
    · obtain ⟨hf,hg⟩ := hkept key hkey
      have hno : key∉gone := by
        intro hmem
        rw [h.gone_none key hmem] at hg
        contradiction
      rw [if_pos hkey,if_neg hno]
      rcases h.changed_all key with hsame | hfnone | hgnone | hmem
      · exact .inl hsame
      · rw [hfnone] at hf
        contradiction
      · rw [hgnone] at hg
        contradiction
      · exact .inr hmem
    · exact .inl (if_neg hkey)

end Framework.Ordered
