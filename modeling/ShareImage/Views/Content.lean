import ShareImage.Images.Resolution
import ShareImage.Views.World

namespace ShareImage.Views

open Framework

/-- The string that `didSet` of a view of the kind loads. -/
def Kind.load (kind : Kind) (user : User) : Option String :=
  ((ReusableView.new kind).didSet (some user)).2

/-- `didSet` replaces all texts of a view of the kind. -/
def Kind.replaces : Kind → User → Bool
  | .searchUserCell,user => user.isComplete
  | .userProfileHeader,_ => true

namespace ReusableView

theorem new_kind (kind : Kind) : (new kind).kind=kind := by
  cases kind <;> rfl

theorem didSet_kind (view : ReusableView) (user : Option User) :
    (view.didSet user).1.kind=view.kind := by
  cases view <;> rfl

/-- What `didSet` loads depends on the user, and not on what the view shows. -/
theorem didSet_load (view : ReusableView) (user : User) :
    (view.didSet (some user)).2=view.kind.load user := by
  cases view with
  | searchUserCell cell =>
    have hsame : (cell.didSet (some user)).2=(SearchUserCell.didSet {} (some user)).2 := by
      cases hc : user.isComplete with
      | true => rw [cell.didSet_complete user hc,SearchUserCell.didSet_complete {} user hc]
      | false => rw [cell.didSet_incomplete user hc,SearchUserCell.didSet_incomplete {} user hc]
    exact hsame
  | userProfileHeader header =>
    have hsame : (header.didSet (some user)).2=(UserProfileHeader.didSet {} (some user)).2 := by
      rw [header.didSet_eq,UserProfileHeader.didSet_eq]
    exact hsame

/-- The texts are those of a new view with the user exactly when `didSet` replaces them, or there
was nothing to replace. -/
theorem didSet_texts_iff (view : ReusableView) (user : User) :
    (view.didSet (some user)).1=((new view.kind).didSet (some user)).1 ↔
      view.kind.replaces user=true ∨ view=new view.kind := by
  cases view with
  | searchUserCell cell =>
    have hcell : (didSet (.searchUserCell cell) (some user)).1=
        .searchUserCell (cell.didSet (some user)).1 := rfl
    have hnew : (didSet (new .searchUserCell) (some user)).1=
        .searchUserCell (SearchUserCell.didSet {} (some user)).1 := rfl
    change _=(didSet (new .searchUserCell) (some user)).1 ↔ user.isComplete=true ∨ _
    rw [hcell,hnew]
    cases hc : user.isComplete with
    | true =>
      rw [cell.didSet_complete user hc,SearchUserCell.didSet_complete {} user hc]
      simp
    | false =>
      rw [cell.didSet_incomplete user hc,SearchUserCell.didSet_incomplete {} user hc]
      simp [kind,new]
  | userProfileHeader header =>
    have htexts : (didSet (.userProfileHeader header) (some user)).1=
        (didSet (new .userProfileHeader) (some user)).1 := by
      have hheader := header.didSet_eq user
      have hnew := UserProfileHeader.didSet_eq {} user
      change ReusableView.userProfileHeader (header.didSet (some user)).1=
        .userProfileHeader (UserProfileHeader.didSet {} (some user)).1
      rw [hheader,hnew]
    exact ⟨fun _ => .inl rfl,fun _ => htexts⟩

end ReusableView

/-- The events of the image views are those that the views put out. -/
theorem step_images (p : Platform) (w : World) (e : Event) (v : World)
    (h : w.step p e=some v) : (Images.machine p).run w.images (w.imageEvents e)=some v.images := by
  cases e with
  | setUser n user =>
    have hv : w.setUser p n user=v := Option.some.inj h
    subst hv
    unfold World.imageEvents World.setUser
    cases hload : ((w.view n).didSet (some user)).2 with
    | none => simp [hload]
    | some urlString => simp [hload,Machine.run_cons,Images.machine,Images.World.step]
  | completeTask k data error =>
    obtain ⟨images,himages,rfl⟩ := Option.map_eq_some_iff.mp h
    simp [World.imageEvents,Machine.run_cons,Images.machine,himages]
  | runPosted k =>
    obtain ⟨images,himages,rfl⟩ := Option.map_eq_some_iff.mp h
    simp [World.imageEvents,Machine.run_cons,Images.machine,himages]

theorem run_images (p : Platform) (w v : World) (es : List Event)
    (h : (machine p).run w es=some v) :
    (Images.machine p).run w.images ((machine p).log World.imageEvents w es)=some v.images :=
  (machine p).run_simulates (Images.machine p) World.images World.imageEvents (step_images p)
    w v es h

/-- Only the events that set its user change a view's texts. -/
theorem step_view (p : Platform) (w : World) (e : Event) (v : World) (h : w.step p e=some v)
    (n : Nat) : v.view n=w.view n ∨
      ∃user,e=.setUser n user ∧ v.view n=((w.view n).didSet (some user)).1 := by
  cases e with
  | setUser m user =>
    have hv : w.setUser p m user=v := Option.some.inj h
    subst hv
    by_cases hm : n=m
    · subst hm
      exact .inr ⟨user,rfl,Function.update_self ..⟩
    · exact .inl (Function.update_of_ne hm ..)
  | completeTask k data error =>
    obtain ⟨images,_,rfl⟩ := Option.map_eq_some_iff.mp h
    exact .inl rfl
  | runPosted k =>
    obtain ⟨images,_,rfl⟩ := Option.map_eq_some_iff.mp h
    exact .inl rfl

theorem run_kind (p : Platform) (kind : Nat → Kind) (es : List Event) (w : World)
    (h : (machine p).run (World.launch kind) es=some w) (n : Nat) : (w.view n).kind=kind n := by
  refine (machine p).run_invariant (fun w => (w.view n).kind=kind n) ?_ (World.launch kind) w es
    (ReusableView.new_kind (kind n)) h
  intro w e v hw hstep
  rcases step_view p w e v hstep n with hsame | ⟨user,_,hset⟩
  · rw [hsame]
    exact hw
  · rw [hset,ReusableView.didSet_kind]
    exact hw

theorem imageEvents_calls (w : World) (e : Event) (n : Nat) (he : e.sets n=false) :
    ∀x∈w.imageEvents e,x.calls n=false := by
  intro x hx
  cases e with
  | setUser m user =>
    obtain ⟨urlString,_,rfl⟩ := List.mem_map.mp hx
    exact he
  | completeTask k data error =>
    have hx' := List.mem_singleton.mp hx
    rw [hx']
    rfl
  | runPosted k =>
    have hx' := List.mem_singleton.mp hx
    rw [hx']
    rfl

/-- The load of the string in the state `before` finds the image in the cache, or its download
brings data. -/
def Arrives (p : Platform) (before w : World) (urlString : String) : Prop :=
  before.images.cached p urlString≠none ∨
  ∃r∈w.images.responses,r.call=before.images.calls.length

/-- The image that the load of the user's string has assigned. -/
def resolved (p : Platform) (kind : Kind) (user : User) (before w : World) :
    Option (Option UIImage) :=
  (kind.load user).bind fun urlString => before.images.resolution p w.images urlString

theorem resolved_isSome_iff (p : Platform) (kind : Kind) (user : User) (before w : World) :
    (resolved p kind user before w).isSome=true ↔
      ∃urlString,kind.load user=some urlString ∧ Arrives p before w urlString := by
  unfold resolved
  cases hload : kind.load user with
  | none => simp
  | some urlString =>
    unfold Images.World.resolution Arrives
    cases hcache : before.images.cached p urlString with
    | some image => simp [hcache]
    | none => simp [hcache]

/-- What the view shows is what a new view shows once the user is set and the image that the user's
string resolves to has been assigned, if any: a function of the user and that image. -/
structure SameAsNew (p : Platform) (kind : Kind) (user : User) (before w : World) (n : Nat) :
    Prop where
  view : w.view n=((ReusableView.new kind).didSet (some user)).1
  image : w.images.image n=(resolved p kind user before w).getD none

section Settled

variable (p : Platform) (kind : Nat → Kind) (pre mid : List Event) (n : Nat) (user : User)
variable (before w : World) (hpre : (machine p).run (World.launch kind) pre=some before)
variable (hmid : ∀e∈mid,e.sets n=false)
variable (h : (machine p).run before (.setUser n user::mid)=some w)
variable (hsettled : before.images.outstanding n=[]) (hdone : w.images.outstanding n=[])

include hmid h in
/-- What the labels show until the next user is set. -/
theorem view_of_setUser : w.view n=((before.view n).didSet (some user)).1 := by
  obtain ⟨u,hu,hrun⟩ := (machine p).run_cons_split before w _ mid h
  have hset : u.view n=((before.view n).didSet (some user)).1 := by
    have hu' : before.setUser p n user=u := Option.some.inj hu
    rw [←hu']
    exact Function.update_self ..
  refine (machine p).run_invariant_of_mem
    (fun v => v.view n=((before.view n).didSet (some user)).1) u w mid ?_ hset hrun
  intro v e x he hv hstep
  rcases step_view p v e x hstep n with hsame | ⟨other,rfl,_⟩
  · rw [hsame]
    exact hv
  · have hno := hmid _ he
    simp [Event.sets] at hno

include hpre hmid h hsettled hdone in
/-- What the image view shows once the load is over: what it has assigned, or what was there. -/
theorem image_of_setUser :
    w.images.image n=(resolved p (kind n) user before w).getD (before.images.image n) := by
  have hb : Images.Coherent p before.images :=
    Images.run_coherent p _ _ (run_images p (World.launch kind) before pre hpre)
  have hkind : (before.view n).kind=kind n := run_kind p kind pre before hpre n
  obtain ⟨u,hu,hrun⟩ := (machine p).run_cons_split before w _ mid h
  have hafter := run_images p u w mid hrun
  have hcalls : ∀x∈(machine p).log World.imageEvents u mid,x.calls n=false :=
    (machine p).log_forall World.imageEvents (fun x => x.calls n=false) u mid
      fun v e he x hx => imageEvents_calls v e n (hmid e he) x hx
  have hset := step_images p before (.setUser n user) u hu
  unfold resolved
  cases hload : (kind n).load user with
  | none =>
    have hevents : before.imageEvents (.setUser n user)=[] := by
      simp [World.imageEvents,ReusableView.didSet_load,hkind,hload]
    rw [hevents] at hset
    have hsame : before.images=u.images := Option.some.inj hset
    rw [hsame] at hsettled ⊢
    exact Images.run_idle p u.images w.images _ n hcalls hsettled hafter
  | some urlString =>
    have hevents : before.imageEvents (.setUser n user)=[.loadImage n urlString] := by
      simp [World.imageEvents,ReusableView.didSet_load,hkind,hload]
    rw [hevents] at hset
    have hwhole := (Images.machine p).run_append before.images [.loadImage n urlString]
      ((machine p).log World.imageEvents u mid)
    rw [hset,Option.bind_some,hafter] at hwhole
    exact Images.image_of_call hb _ hcalls hsettled hwhole hdone

end Settled

/-- A new view shows the user and the image that the user's string resolves to. -/
theorem new_view_shows (p : Platform) (kind : Nat → Kind) (pre mid : List Event) (n : Nat)
    (user : User) (before w : World)
    (hpre : (machine p).run (World.launch kind) pre=some before)
    (hmid : ∀e∈mid,e.sets n=false)
    (h : (machine p).run before (.setUser n user::mid)=some w)
    (hsettled : before.images.outstanding n=[]) (hdone : w.images.outstanding n=[])
    (hview : before.view n=.new (kind n)) (himage : before.images.image n=none) :
    SameAsNew p (kind n) user before w n where
  view := by
    rw [view_of_setUser p mid n user before w hmid h,hview]
  image := by
    rw [image_of_setUser p kind pre mid n user before w hpre hmid h hsettled hdone,himage]

theorem getD_eq_getD_iff {Value : Type} (a : Option (Option Value)) (x : Option Value) :
    a.getD x=a.getD none ↔ a.isSome=true ∨ x=none := by
  cases a with
  | none => simp
  | some y => simp

/-- A reused view shows only its present user exactly when the user's record lets `didSet` replace
all texts, or the view still had those of a new one, and the load assigns an image, or the view had
none. -/
theorem shows_only_current_iff (p : Platform) (kind : Nat → Kind) (pre mid : List Event) (n : Nat)
    (user : User) (before w : World)
    (hpre : (machine p).run (World.launch kind) pre=some before)
    (hmid : ∀e∈mid,e.sets n=false)
    (h : (machine p).run before (.setUser n user::mid)=some w)
    (hsettled : before.images.outstanding n=[]) (hdone : w.images.outstanding n=[]) :
    SameAsNew p (kind n) user before w n ↔
      ((kind n).replaces user=true ∨ before.view n=.new (kind n)) ∧
      ((∃urlString,(kind n).load user=some urlString ∧ Arrives p before w urlString) ∨
        before.images.image n=none) := by
  have hkind : (before.view n).kind=kind n := run_kind p kind pre before hpre n
  have hview := view_of_setUser p mid n user before w hmid h
  have himage := image_of_setUser p kind pre mid n user before w hpre hmid h hsettled hdone
  have htexts := (before.view n).didSet_texts_iff user
  rw [hkind] at htexts
  have hsame : SameAsNew p (kind n) user before w n ↔
      w.view n=((ReusableView.new (kind n)).didSet (some user)).1 ∧
      w.images.image n=(resolved p (kind n) user before w).getD none :=
    ⟨fun hs => ⟨hs.view,hs.image⟩,fun hs => ⟨hs.1,hs.2⟩⟩
  rw [hsame,hview,htexts,himage,getD_eq_getD_iff,resolved_isSome_iff]

/-- Two search cells, and the profile header. -/
def kinds (n : Nat) : Kind := if n<2 then .searchUserCell else .userProfileHeader

def ann : User := .init "1" [("username",.string "ann"),("fullname",.string "Ann"),
  ("profileImageUrl",.string "https://i/ann")]

/-- A record without an image. -/
def bob : User := .init "2" [("username",.string "bob"),("fullname",.string "Bob")]

def cid : User := .init "3" [("username",.string "cid"),("fullname",.string "Cid"),
  ("profileImageUrl",.string "https://i/cid")]

/-- The view shows a user, and the load is over. -/
def shown (n : Nat) (user : User) (pixels : List UInt8) : List Event :=
  [.setUser n user,.completeTask 0 (some ⟨pixels⟩) none,.runPosted 0]

theorem shows_only_current_cid :
    ∃before w,(machine .plain).run (World.launch kinds) (shown 0 ann [7])=some before ∧
      (machine .plain).run before (shown 0 cid [9])=some w ∧
      SameAsNew .plain .searchUserCell cid before w 0 := by
  refine ⟨_,_,rfl,rfl,?_⟩
  exact (shows_only_current_iff .plain kinds (shown 0 ann [7]) (shown 0 cid [9]).tail 0 cid _ _ rfl
    (by decide) rfl rfl rfl).mpr ⟨.inl rfl,.inl ⟨"https://i/cid",rfl,.inr (by decide)⟩⟩

/-- Each time the view's user is set, the loads before are over. -/
def Settled (p : Platform) (kind : Nat → Kind) (n : Nat) (es : List Event) : Prop :=
  (machine p).Meets (fun w e => e.sets n=true → w.images.outstanding n=[]) (World.launch kind) es

instance (p : Platform) (kind : Nat → Kind) (n : Nat) (es : List Event) :
    Decidable (Settled p kind n es) := by
  unfold Settled
  infer_instance

/-- A reused view of the kind shows what a new one would, once the loads are over. -/
def ShowsOnlyCurrent (k : Kind) : Prop :=
  ∀(p : Platform) (kind : Nat → Kind) (pre mid : List Event) (n : Nat) (user : User)
    (before w : World),kind n=k → (machine p).run (World.launch kind) pre=some before →
    (∀e∈mid,e.sets n=false) → (machine p).run before (.setUser n user::mid)=some w →
    Settled p kind n (pre++.setUser n user::mid) → w.images.outstanding n=[] →
    SameAsNew p k user before w n

/-- A cell keeps the texts of the user before, a header the image. -/
theorem not_shows_only_current :
    ¬ShowsOnlyCurrent .searchUserCell ∧ ¬ShowsOnlyCurrent .userProfileHeader := by
  constructor
  · intro h
    have hsame := h .plain kinds (shown 0 ann [7]) [] 0 bob _ _ rfl rfl (by decide) rfl
      (by decide) rfl
    exact absurd hsame.view (by decide)
  · intro h
    have hsame := h .plain kinds (shown 2 ann [7]) [] 2 bob _ _ rfl rfl (by decide) rfl
      (by decide) rfl
    exact absurd hsame.image (by decide)

end ShareImage.Views
