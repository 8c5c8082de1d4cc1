import ShareImage.Session.Transition

namespace ShareImage.Session

open Framework

/-- No touch is delivered before the block of the launch check has run. -/
def World.touchable (w : World) (e : Event) : Bool := !e.isTouch || !w.launchBlock

/-- The event leaves somebody signed in wherever the tab bar is open: a logout gets its login UI on
screen, a login UI goes only with a user there, and Auth signs nobody out but under a login UI. -/
def World.keepsUser (detached : Bool) (w : World) : Event → Bool
  | .confirmLogout none => w.logoutPresents detached
  | .runCallback k =>
    match w.callbacks[k]? with
    | some ⟨.signIn id,none⟩ => !w.dismisses id || w.currentUser.isSome
    | _ => true
  | .forcedSignOut => w.covered || w.currentUser.isNone
  | _ => true

/-- Somebody is signed in wherever the tab bar is open, once the launch check has run; before, the
feed is on screen. -/
structure Safe (w : World) : Prop where
  launching : w.launchBlock=true → w.selected=.feed ∧ w.presented=.nothing
  uncovered : w.launchBlock=false → w.covered=false → w.currentUser≠none
  alive : w.trapped=false

theorem launch_safe (currentUser : Option String) : Safe (World.launch currentUser) where
  launching := fun _ => ⟨rfl,rfl⟩
  uncovered := by
    intro hblock _ hnone
    have hnone' : currentUser=none := hnone
    subst hnone'
    contradiction
  alive := rfl

theorem Safe.presentLogin {w : World} (hblock : w.launchBlock=false) (halive : w.trapped=false) :
    Safe (w.presentLogin true) where
  launching := by
    intro hlaunch
    have hlaunch' : w.launchBlock=true := hlaunch
    rw [hblock] at hlaunch'
    contradiction
  uncovered := by
    intro _ hopen
    contradiction
  alive := halive

/-- Nothing is dismissed while nothing is presented. -/
theorem dismiss_nothing (w : World) (login : Nat) (h : w.presented=.nothing) :
    w.dismiss login=w := by
  simp only [World.dismiss,h]

theorem Safe.signedIn {w : World} (detached : Bool) (hw : Safe w) (k login : Nat)
    (hk : w.callbacks[k]?=some ⟨.signIn login,none⟩)
    (hc : w.keepsUser detached (.runCallback k)=true) : Safe (w.signedIn k login) := by
  have hstays : w.presented=.nothing → (w.signedIn k login).presented=.nothing := by
    intro hnothing
    have hdismiss := dismiss_nothing
      ({w with callbacks := w.callbacks.eraseIdx k} : World).configureViewControllers login hnothing
    rw [World.signedIn,hdismiss]
    exact hnothing
  rw [World.signedIn_eq]
  refine ⟨?_,?_,hw.alive⟩
  · intro hlaunch
    obtain ⟨hfeed,hnothing⟩ := hw.launching hlaunch
    exact ⟨hfeed,hstays hnothing⟩
  · intro hblock hopen
    rcases w.signedIn_presented k login with ⟨_,hdismisses⟩ | ⟨hsame,_⟩
    · have hsome : w.currentUser.isSome=true := by
        simpa [World.keepsUser,hk,hdismisses] using hc
      exact Option.isSome_iff_ne_none.mp hsome
    · exact hw.uncovered hblock ((World.covered_congr w _ hsame).symm.trans hopen)

theorem step_safe (detached : Bool) (w : World) (e : Event) (v : World) (hw : Safe w)
    (hc : (w.touchable e && w.keepsUser detached e)=true) (h : w.step detached e=some v) :
    Safe v := by
  obtain ⟨_,ht⟩ := step_transition detached w v e h
  obtain ⟨htouch,hkeeps⟩ := Bool.and_eq_true_iff.mp hc
  have hran : e.isTouch=true → w.launchBlock=false := by
    intro he
    simpa [World.touchable,he] using htouch
  cases ht with
  | touch e selected presented requests he hp =>
    refine ⟨?_,?_,hw.alive⟩
    · intro hlaunch
      rw [hran he] at hlaunch
      contradiction
    · intro hblock hopen
      exact hw.uncovered hblock ((World.covered_congr w _ hp).symm.trans hopen)
  | logout feed hp =>
    have heffective : (feed==w.generation || detached)=true := by
      simpa only [World.keepsUser,World.logoutPresents,hp] using hkeeps
    rw [heffective]
    exact Safe.presentLogin (hran rfl) hw.alive
  | launched hlaunch =>
    have heffective : (w.presented==Presented.nothing)=true := by
      simpa using (hw.launching hlaunch).2
    rw [heffective]
    exact Safe.presentLogin rfl hw.alive
  | succeed k request uid => exact ⟨hw.launching,fun _ _ => Option.some_ne_none uid,hw.alive⟩
  | fail k request error => exact ⟨hw.launching,hw.uncovered,hw.alive⟩
  | idle k c => exact ⟨hw.launching,hw.uncovered,hw.alive⟩
  | signedIn k login hk => exact hw.signedIn detached k login hk hkeeps
  | header uid => exact ⟨hw.launching,hw.uncovered,hw.alive⟩
  | trap hs hopen huser =>
    cases hblock : w.launchBlock with
    | true =>
      have hfeed := (hw.launching hblock).1
      rw [hs] at hfeed
      contradiction
    | false => exact absurd huser (hw.uncovered hblock hopen)
  | fetch k f value => exact ⟨hw.launching,hw.uncovered,hw.alive⟩
  | load => exact ⟨hw.launching,hw.uncovered,hw.alive⟩
  | forcedSignOut =>
    refine ⟨hw.launching,?_,hw.alive⟩
    intro hblock hopen
    have hopen' : w.covered=false := hopen
    have hnone : w.currentUser=none := by
      simpa [World.keepsUser,hopen'] using hkeeps
    exact absurd hnone (hw.uncovered hblock hopen')

/-- The forced unwrap of the current uid never meets nil. -/
theorem never_trapped (detached : Bool) (currentUser : Option String) (es : List Event) (w : World)
    (h : (machine detached).run (World.launch currentUser) es=some w)
    (hc : (machine detached).Meets (fun w e => (w.touchable e && w.keepsUser detached e)=true)
      (World.launch currentUser) es) : w.trapped=false := by
  have hw : Safe w := (machine detached).run_invariant_of_meets _ Safe (step_safe detached) _ w es
    (launch_safe currentUser) hc h
  exact hw.alive

/-- A sign-in, a visit of the profile tab, a logout, a forced sign-out under the login UI and
another sign-in and visit. -/
def visits : List Event :=
  [.launched,.tapSignIn,.answer 0 (.ok "uid1"),.runCallback 0,.select .profile,.requestHeader,
    .select .feed,.tapLogout,.confirmLogout none,.forcedSignOut,.tapSignIn,.answer 0 (.ok "uid2"),
    .runCallback 0,.select .profile,.requestHeader]

theorem never_trapped_visits :
    ∃w,(machine false).run (World.launch none) visits=some w ∧
      w.fetches=[⟨1,"uid1"⟩,⟨2,"uid2"⟩] ∧ w.trapped=false := by
  refine ⟨_,rfl,rfl,?_⟩
  exact never_trapped false none visits _ rfl (by decide)

/-- Auth signs the user out, and the profile tab is visited after that. -/
def revoked : List Event := [.forcedSignOut,.select .profile,.requestHeader]

theorem not_never_trapped : ¬∀(currentUser : Option String) (es : List Event) (w : World),
    (machine false).run (World.launch currentUser) es=some w →
    (machine false).Meets (fun w e => w.touchable e=true) (World.launch currentUser) es →
    w.trapped=false := by
  intro h
  have halive := h (some "uid1") revoked _ rfl (by decide)
  contradiction

end ShareImage.Session
