import ShareImage.Framework.Log
import ShareImage.Session.Transition

namespace ShareImage.Session

open Framework

/-- The part of the world that decides whose data the profile screens show. -/
structure Tabs where
  currentUser : Option String
  changes : Nat
  generation : Nat
  builtAt : Nat
  fetches : List Fetch
  profile : Nat → UserProfileCollectionViewController

def World.tabs (w : World) : Tabs :=
  ⟨w.currentUser,w.changes,w.generation,w.builtAt,w.fetches,w.profile⟩

/-- As long as the user has not changed since the controllers were built, the profile screen shows
and fetches the current user only. -/
structure Shows (t : Tabs) : Prop where
  builtAt_le : t.builtAt≤t.changes
  fetches_le : ∀f∈t.fetches,f.generation≤t.generation
  unbuilt : ∀n,t.generation<n → t.profile n={}
  fetched : t.builtAt=t.changes → ∀f∈t.fetches,f.generation=t.generation →
    t.currentUser=some f.uid
  shown : t.builtAt=t.changes → ∀user,(t.profile t.generation).header=some user →
    t.currentUser=some user.uid
  titled : ∀n,(t.profile n).Titled

theorem launch_shows (currentUser : Option String) : Shows (World.launch currentUser).tabs where
  builtAt_le := Nat.le_refl 0
  fetches_le := by simp [World.tabs,World.launch]
  unbuilt := fun n _ => rfl
  fetched := by simp [World.tabs,World.launch]
  shown := by simp [World.tabs,World.launch]
  titled := fun n => rfl

section Shows

variable {w : World} (hw : Shows w.tabs)
include hw

theorem Shows.setUser (user : Option String) : Shows (w.setUser user).tabs := by
  have hle : w.builtAt≤w.changes := hw.builtAt_le
  rcases w.setUser_changes user with ⟨hsame,hchanges⟩ | hchanges
  · have htabs : (w.setUser user).tabs=w.tabs := by
      simp only [World.tabs,hchanges]
      simp only [World.setUser,hsame]
    rw [htabs]
    exact hw
  · have hne : w.builtAt≠(w.setUser user).changes := by omega
    refine ⟨?_,hw.fetches_le,hw.unbuilt,?_,?_,hw.titled⟩
    · change w.builtAt≤(w.setUser user).changes
      omega
    · intro heq
      exact absurd heq hne
    · intro heq
      exact absurd heq hne

theorem Shows.configureViewControllers : Shows w.configureViewControllers.tabs where
  builtAt_le := Nat.le_refl w.changes
  fetches_le := fun f hf => Nat.le_succ_of_le (hw.fetches_le f hf)
  unbuilt := fun n hn => hw.unbuilt n (Nat.lt_of_succ_lt hn)
  fetched := by
    intro _ f hf heq
    have hle : f.generation≤w.generation := hw.fetches_le f hf
    have hnew : f.generation=w.generation+1 := heq
    omega
  shown := by
    intro _ user huser
    have hempty : w.profile (w.generation+1)={} := hw.unbuilt _ (Nat.lt_succ_self _)
    change (w.profile (w.generation+1)).header=some user at huser
    rw [hempty] at huser
    contradiction
  titled := hw.titled

theorem Shows.fetch (uid : String) (hu : w.currentUser=some uid) :
    Shows ({w with fetches := w.fetches++[⟨w.generation,uid⟩]} : World).tabs where
  builtAt_le := hw.builtAt_le
  fetches_le := by
    intro f hf
    rcases List.mem_append.mp hf with hf | hf
    · exact hw.fetches_le f hf
    · rw [List.mem_singleton.mp hf]
      exact Nat.le_refl w.generation
  unbuilt := hw.unbuilt
  fetched := by
    intro heq f hf hgen
    rcases List.mem_append.mp hf with hf | hf
    · exact hw.fetched heq f hf hgen
    · rw [List.mem_singleton.mp hf]
      exact hu
  shown := hw.shown
  titled := hw.titled

theorem Shows.completeFetch (k : Nat) (f : Fetch) (value : AnyObject)
    (hk : w.fetches[k]?=some f) :
    Shows ({w with
      fetches := w.fetches.eraseIdx k
      profile := Function.update w.profile f.generation
        ((w.profile f.generation).headerCallback ⟨f.uid,value⟩)} : World).tabs := by
  have hf : f∈w.fetches := List.mem_of_getElem? hk
  refine ⟨hw.builtAt_le,?_,?_,?_,?_,?_⟩
  · exact fun g hg => hw.fetches_le g (List.mem_of_mem_eraseIdx hg)
  · intro n hn
    have hle : f.generation≤w.generation := hw.fetches_le f hf
    have hne : n≠f.generation := by
      change w.generation<n at hn
      omega
    exact (Function.update_of_ne hne ..).trans (hw.unbuilt n hn)
  · exact fun heq g hg => hw.fetched heq g (List.mem_of_mem_eraseIdx hg)
  · intro heq user huser
    simp only [World.tabs,Function.update_apply] at huser
    split at huser
    · rename_i hgen
      rw [←hgen] at huser
      have hcases := UserProfileCollectionViewController.headerCallback_header _ _ user huser
      rcases hcases with hold | hnew
      · exact hw.shown heq user hold
      · rw [hnew]
        exact hw.fetched heq f hf hgen.symm
    · exact hw.shown heq user huser
  · intro n
    simp only [World.tabs,Function.update_apply]
    split
    · exact UserProfileCollectionViewController.headerCallback_titled _ _ (hw.titled f.generation)
    · exact hw.titled n

theorem Shows.transition (detached : Bool) (e : Event) (v : World)
    (h : Transition detached w e v) : Shows v.tabs := by
  cases h with
  | touch _ _ _ _ => exact hw
  | logout feed => exact hw.setUser none
  | launched => exact hw
  | succeed k request uid => exact hw.setUser (some uid)
  | fail k request error => exact hw
  | idle k c => exact hw
  | signedIn k login =>
    rw [World.signedIn_eq]
    exact hw.configureViewControllers
  | header uid _ _ hu => exact hw.fetch uid hu
  | trap => exact hw
  | fetch k f value hk => exact hw.completeFetch k f value hk
  | load => exact hw
  | forcedSignOut => exact hw.setUser none

end Shows

theorem run_shows (detached : Bool) (currentUser : Option String) (es : List Event) (w : World)
    (h : (machine detached).run (World.launch currentUser) es=some w) : Shows w.tabs := by
  apply (machine detached).run_invariant (fun w => Shows w.tabs) _ _ w es (launch_shows _) h
  intro u e v hu hstep
  exact hu.transition detached e v (step_transition detached u v e hstep).2

/-- A callback that will rebuild the tab controllers is on the main queue. -/
def World.rebuildPending (w : World) : Bool := w.callbacks.any Callback.rebuilds

/-- The event does not bring in a user past the tab controllers: an account is created only while
the login UI covers them or a rebuild is pending, and a logout gets its login UI on screen. A
forced sign-out is no event of these runs. -/
def World.rebuilt (detached : Bool) (w : World) : Event → Bool
  | .answer k (.ok _) => w.requests[k]?!=some .createUser || w.covered || w.rebuildPending
  | .confirmLogout none => w.logoutPresents detached
  | .forcedSignOut => false
  | _ => true

/-- The tab controllers on screen are those of the current user, or will be. -/
def World.Current (w : World) : Prop :=
  w.covered=false → w.builtAt=w.changes ∨ w.rebuildPending=true

/-- A callback that rebuilds nothing leaves a pending rebuild where it is. -/
theorem rebuildPending_eraseIdx (w : World) (k : Nat) (c : Callback) (hk : w.callbacks[k]?=some c)
    (hc : c.rebuilds=false) (h : w.rebuildPending=true) :
    ({w with callbacks := w.callbacks.eraseIdx k} : World).rebuildPending=true := by
  obtain ⟨b,hb,hrebuilds⟩ := List.any_eq_true.mp h
  have hne : b≠c := by
    intro heq
    rw [heq,hc] at hrebuilds
    contradiction
  exact List.any_eq_true.mpr ⟨b,mem_eraseIdx_of_ne w.callbacks k c b hk hb hne,hrebuilds⟩

theorem rebuildPending_concat (w : World) (c : Callback) :
    (w.callbacks++[c]).any Callback.rebuilds=(w.rebuildPending || c.rebuilds) := by
  simp [World.rebuildPending]

theorem presentLogin_current (w : World) (effective : Bool) (hw : w.Current) :
    (w.presentLogin effective).Current := by
  intro hcovered
  cases effective with
  | true => contradiction
  | false => exact hw hcovered

theorem step_current (detached : Bool) (w : World) (e : Event) (v : World) (hw : w.Current)
    (hc : w.rebuilt detached e=true) (h : w.step detached e=some v) : v.Current := by
  obtain ⟨_,ht⟩ := step_transition detached w v e h
  cases ht with
  | touch e _ presented _ he hp =>
    intro hcovered
    exact hw ((World.covered_congr _ _ hp).symm.trans hcovered)
  | logout feed hp =>
    have heffective : (feed==w.generation || detached)=true := by
      simpa only [World.rebuilt,World.logoutPresents,hp] using hc
    intro hcovered
    rw [heffective] at hcovered
    contradiction
  | launched => exact presentLogin_current _ _ hw
  | succeed k request uid hk =>
    intro hcovered
    right
    change (w.callbacks++[(⟨request,none⟩ : Callback)]).any Callback.rebuilds=true
    rw [rebuildPending_concat]
    cases request with
    | signIn login => simp [Callback.rebuilds]
    | createUser =>
      have hopen : w.covered=false := hcovered
      have hpending : w.rebuildPending=true := by
        simpa [World.rebuilt,hk,hopen] using hc
      rw [hpending]
      rfl
  | fail k request error =>
    intro hcovered
    rcases hw hcovered with hbuilt | hpending
    · exact .inl hbuilt
    · right
      change (w.callbacks++[(⟨request,some error⟩ : Callback)]).any Callback.rebuilds=true
      rw [rebuildPending_concat,hpending,Bool.true_or]
  | idle k c hk hidle =>
    intro hcovered
    exact (hw hcovered).imp_right (rebuildPending_eraseIdx w k c hk hidle)
  | signedIn k login =>
    intro _
    rw [World.signedIn_eq]
    exact .inl rfl
  | header uid => exact hw
  | trap => exact hw
  | fetch k f value => exact hw
  | load => exact hw
  | forcedSignOut => contradiction

theorem run_current (detached : Bool) (currentUser : Option String) (es : List Event) (w : World)
    (h : (machine detached).run (World.launch currentUser) es=some w)
    (hc : (machine detached).Meets (fun w e => w.rebuilt detached e=true)
      (World.launch currentUser) es) : w.Current := by
  have start : (World.launch currentUser).Current := fun _ => .inl rfl
  exact (machine detached).run_invariant_of_meets _ World.Current (step_current detached) _ w es
    start hc h

/-- The user that the profile screen shows, in the header and as the title, is the current one. -/
def World.ShowsCurrent (w : World) : Prop :=
  ∀user,(w.profile w.generation).header=some user →
    w.currentUser=some user.uid ∧ (w.profile w.generation).title=user.username

/-- With the tab bar uncovered and no callback of Auth pending, the tab controllers were built
after the current user last changed, and show no other user. -/
theorem identity_of_rebuilt (detached : Bool) (currentUser : Option String) (es : List Event)
    (w : World) (h : (machine detached).run (World.launch currentUser) es=some w)
    (hc : (machine detached).Meets (fun w e => w.rebuilt detached e=true)
      (World.launch currentUser) es) (hcovered : w.covered=false) (hrest : w.callbacks=[]) :
    w.builtAt=w.changes ∧ w.ShowsCurrent := by
  have hshows : Shows w.tabs := run_shows detached currentUser es w h
  have hbuilt : w.builtAt=w.changes := by
    rcases run_current detached currentUser es w h hc hcovered with hbuilt | hpending
    · exact hbuilt
    · rw [World.rebuildPending,hrest] at hpending
      contradiction
  refine ⟨hbuilt,?_⟩
  intro user huser
  have htitle : (w.profile w.generation).title=
      (w.profile w.generation).header.bind User.username := hshows.titled w.generation
  rw [huser] at htitle
  exact ⟨hshows.shown hbuilt user huser,htitle⟩

def annRecord : AnyObject := .dictionary [("username",.string "ann")]

/-- A sign-in with a request still in flight, a visit of the profile tab, a logout and a sign-in as
somebody else; the first user's record arrives late. -/
def signedInTwice : List Event :=
  [.launched,.tapSignIn,.tapSignIn,.answer 1 (.ok "uid1"),.runCallback 0,.select .profile,
    .requestHeader,.answer 0 (.error "network"),.runCallback 0,.select .feed,.tapLogout,
    .confirmLogout none,.tapSignIn,.answer 0 (.ok "uid2"),.runCallback 0,
    .completeFetch 0 annRecord]

theorem identity_of_rebuilt_signedInTwice :
    ∃w,(machine false).run (World.launch none) signedInTwice=some w ∧
      w.currentUser=some "uid2" ∧ w.builtAt=w.changes ∧ w.ShowsCurrent := by
  refine ⟨_,rfl,rfl,?_⟩
  exact identity_of_rebuilt false none signedInTwice _ rfl (by decide) rfl rfl

/-- An account is created after the sign-up screen has been left and another user has signed in
and opened the profile tab. -/
def createdLate : List Event :=
  [.launched,.showSignUp,.tapSignUp,.back,.tapSignIn,.answer 1 (.ok "uid1"),.runCallback 0,
    .select .profile,.requestHeader,.completeFetch 0 annRecord,.answer 0 (.ok "uid2"),
    .runCallback 0]

theorem not_showsCurrent : ¬∀(currentUser : Option String) (es : List Event) (w : World),
    (∀e∈es,e≠.forcedSignOut) → (machine false).run (World.launch currentUser) es=some w →
    w.covered=false → w.callbacks=[] → w.builtAt=w.changes ∧ w.ShowsCurrent := by
  intro h
  obtain ⟨_,hshows⟩ := h none createdLate _ (by simp [createdLate]) rfl rfl rfl
  have huser := (hshows ⟨"ann",none,none,"uid1"⟩ rfl).1
  exact absurd huser (by decide)

end ShareImage.Session
