import ShareImage.Framework.Log
import ShareImage.Session.Transition

namespace ShareImage.Session

open Framework

/-- Login controllers are numbered as they are created. -/
structure Numbered (w : World) : Prop where
  presented : ∀id,w.presented.loginId=some id → id<w.logins
  requests : ∀id,.signIn id∈w.requests → id<w.logins
  callbacks : ∀c∈w.callbacks,∀id,c.request=.signIn id → id<w.logins

theorem launch_numbered (currentUser : Option String) : Numbered (World.launch currentUser) where
  presented := by simp [World.launch,Presented.loginId]
  requests := by simp [World.launch]
  callbacks := by simp [World.launch]

section Numbered

variable {w : World} (hw : Numbered w)
include hw

theorem Numbered.presentLogin (effective : Bool) : Numbered (w.presentLogin effective) where
  presented := by
    intro id hid
    cases effective with
    | true =>
      have hnew : w.logins=id := Option.some.inj hid
      change id<w.logins+1
      omega
    | false => exact Nat.lt_succ_of_lt (hw.presented id hid)
  requests := fun id hid => Nat.lt_succ_of_lt (hw.requests id hid)
  callbacks := fun c hc id hid => Nat.lt_succ_of_lt (hw.callbacks c hc id hid)

theorem Numbered.answered (k : Nat) (request : Request) (result : Except String String)
    (hk : w.requests[k]?=some request) : Numbered (w.answered k request result) := by
  have hrequest : ∀id,request=.signIn id → id<w.logins := by
    intro id hid
    apply hw.requests id
    rw [←hid]
    exact List.mem_of_getElem? hk
  have hcallbacks : ∀error,∀c∈w.callbacks++[(⟨request,error⟩ : Callback)],∀id,
      c.request=.signIn id → id<w.logins := by
    intro error c hc id hid
    rcases List.mem_append.mp hc with hc | hc
    · exact hw.callbacks c hc id hid
    · rw [List.mem_singleton.mp hc] at hid
      exact hrequest id hid
  cases result with
  | ok uid =>
    exact ⟨hw.presented,fun id hid => hw.requests id (List.mem_of_mem_eraseIdx hid),hcallbacks none⟩
  | error error =>
    exact ⟨hw.presented,fun id hid => hw.requests id (List.mem_of_mem_eraseIdx hid),
      hcallbacks (some error)⟩

theorem Numbered.transition (detached : Bool) (e : Event) (v : World)
    (h : Transition detached w e v) : Numbered v := by
  have herase : ∀k,∀c∈w.callbacks.eraseIdx k,∀id,c.request=.signIn id → id<w.logins :=
    fun k c hc => hw.callbacks c (List.mem_of_mem_eraseIdx hc)
  cases h with
  | touch e selected presented requests he hp hr =>
    refine ⟨?_,?_,hw.callbacks⟩
    · intro id hid
      exact hw.presented id (hp.symm.trans hid)
    · intro id hid
      rcases hr id hid with hold | hnew
      · exact hw.requests id hold
      · exact hw.presented id hnew
  | logout feed hp =>
    have hclosed : Numbered ({w with presented := .nothing}.setUser none) :=
      ⟨fun id hid => by contradiction,hw.requests,hw.callbacks⟩
    exact hclosed.presentLogin _
  | launched =>
    have hrun : Numbered {w with launchBlock := false} := ⟨hw.presented,hw.requests,hw.callbacks⟩
    exact hrun.presentLogin _
  | succeed k request uid hk => exact hw.answered k request (.ok uid) hk
  | fail k request error hk => exact hw.answered k request (.error error) hk
  | idle k c => exact ⟨hw.presented,hw.requests,herase k⟩
  | signedIn k login =>
    rw [World.signedIn_eq]
    refine ⟨?_,hw.requests,herase k⟩
    intro id hid
    rcases w.signedIn_presented k login with ⟨hnone,_⟩ | ⟨hsame,_⟩
    · have hid' : Presented.loginId .nothing=some id := hnone ▸ hid
      contradiction
    · exact hw.presented id (hsame.symm.trans hid)
  | header uid => exact ⟨hw.presented,hw.requests,hw.callbacks⟩
  | trap => exact ⟨hw.presented,hw.requests,hw.callbacks⟩
  | fetch k f value => exact ⟨hw.presented,hw.requests,hw.callbacks⟩
  | load => exact ⟨hw.presented,hw.requests,hw.callbacks⟩
  | forcedSignOut => exact ⟨hw.presented,hw.requests,hw.callbacks⟩

end Numbered

/-- The callback dismisses the login UI with that number. -/
def Callback.closes (login : Option Nat) (c : Callback) : Bool :=
  match c with
  | ⟨.signIn id,none⟩ => login==some id
  | _ => false

/-- A callback that will dismiss the presented login UI is on the main queue. -/
def World.closing (w : World) : Bool := w.callbacks.any (Callback.closes w.presented.loginId)

/-- The event keeps login UI and session in step: the launch check is still right when its block
runs, a logout gets its login UI on screen, a user comes in under a login UI only by that login UI
or when it is about to close, and no photo picker takes the dismissal. A forced sign-out is no
event of these runs. -/
def World.inStep (detached : Bool) (w : World) : Event → Bool
  | .launched =>
    match w.presented with
    | .nothing => w.currentUser.isNone
    | .alert _ => w.currentUser.isSome
    | .login _ => true
  | .confirmLogout none => w.logoutPresents detached
  | .answer k (.ok _) => !w.covered || w.closing ||
    match w.requests[k]? with
    | some (.signIn id) => w.presented.loginId==some id
    | _ => false
  | .runCallback k =>
    match w.callbacks[k]? with
    | some ⟨.signIn id,none⟩ => w.presented.loginId != some id || w.dismisses id
    | _ => true
  | .forcedSignOut => false
  | _ => true

/-- A login UI over a signed-in user is about to close; no login UI means that somebody is signed
in, or that the launch check has not run yet. -/
structure InStep (w : World) : Prop where
  numbered : Numbered w
  uncovered : w.covered=false → w.launchBlock=true ∨ w.currentUser≠none
  covered : w.covered=true → w.currentUser≠none → w.closing=true
  closing : w.closing=true → w.currentUser≠none

theorem launch_inStep (currentUser : Option String) : InStep (World.launch currentUser) where
  numbered := launch_numbered currentUser
  uncovered := by
    intro _
    cases currentUser with
    | none => exact .inl rfl
    | some uid => exact .inr (by simp [World.launch])
  covered := by
    intro hcovered
    contradiction
  closing := by
    intro hclosing
    contradiction

theorem closes_of_rebuilds (login : Option Nat) (c : Callback) (h : c.rebuilds=false) :
    c.closes login=false := by
  obtain ⟨request,error⟩ := c
  cases request with
  | createUser => rfl
  | signIn id =>
    cases error with
    | none => contradiction
    | some error => rfl

theorem closing_congr (w v : World) (hp : v.presented.loginId=w.presented.loginId)
    (hc : v.callbacks=w.callbacks) : v.closing=w.closing := by
  rw [World.closing,World.closing,hp,hc]

theorem dismisses_loginId (w : World) (login : Nat) (h : w.dismisses login=true) :
    w.presented.loginId=some login := by
  unfold World.dismisses at h
  cases hp : w.presented with
  | nothing => simp [hp] at h
  | alert feed => simp [hp] at h
  | login ui =>
    have hand : ui.id=login ∧ ui.screen≠.photoPicker := by simpa [hp] using h
    exact congrArg some hand.1

/-- A new login controller has no callback yet. -/
theorem Numbered.closing_presentLogin {w : World} (hw : Numbered w) :
    (w.presentLogin true).closing=false := by
  apply List.any_eq_false.mpr
  intro c hc
  have hlt := hw.callbacks c hc
  obtain ⟨request,error⟩ := c
  cases request with
  | createUser => simp [Callback.closes]
  | signIn id =>
    have hid : id<w.logins := hlt id rfl
    cases error with
    | none =>
      have hne : w.logins≠id := by omega
      simpa [Callback.closes,World.presentLogin,Presented.loginId] using hne
    | some error => simp [Callback.closes]

/-- A callback that does not close the login UI leaves one that does where it is. -/
theorem closing_eraseIdx (w : World) (k : Nat) (c : Callback) (hk : w.callbacks[k]?=some c)
    (hc : c.closes w.presented.loginId=false) :
    ({w with callbacks := w.callbacks.eraseIdx k} : World).closing=w.closing := by
  rw [Bool.eq_iff_iff]
  constructor
  · intro h
    obtain ⟨b,hb,hcloses⟩ := List.any_eq_true.mp h
    exact List.any_eq_true.mpr ⟨b,List.mem_of_mem_eraseIdx hb,hcloses⟩
  · intro h
    obtain ⟨b,hb,hcloses⟩ := List.any_eq_true.mp h
    have hne : b≠c := by
      intro heq
      rw [heq,hc] at hcloses
      contradiction
    exact List.any_eq_true.mpr ⟨b,mem_eraseIdx_of_ne w.callbacks k c b hk hb hne,hcloses⟩

theorem closing_concat (w : World) (c : Callback) :
    (w.callbacks++[c]).any (Callback.closes w.presented.loginId)=
      (w.closing || c.closes w.presented.loginId) := by
  simp [World.closing]

theorem InStep.congr {w : World} (hw : InStep w) (v : World) (hv : Numbered v)
    (hcovered : v.covered=w.covered) (hclosing : v.closing=w.closing)
    (hblock : v.launchBlock=w.launchBlock) (huser : v.currentUser=w.currentUser) : InStep v where
  numbered := hv
  uncovered := by
    rw [hcovered,hblock,huser]
    exact hw.uncovered
  covered := by
    rw [hcovered,hclosing,huser]
    exact hw.covered
  closing := by
    rw [hclosing,huser]
    exact hw.closing

/-- A new login UI comes with no user. -/
theorem InStep.presentLogin {w : World} (hw : Numbered w) (huser : w.currentUser=none) :
    InStep (w.presentLogin true) where
  numbered := hw.presentLogin true
  uncovered := by
    intro hcovered
    contradiction
  covered := by
    intro _ hsome
    exact absurd huser hsome
  closing := by
    intro hclosing
    rw [hw.closing_presentLogin] at hclosing
    contradiction

theorem launched_cases (detached : Bool) (w : World) (hc : w.inStep detached .launched=true) :
    (w.presented=.nothing ∧ w.currentUser=none) ∨
    (w.presented≠.nothing ∧ (w.covered=false → w.currentUser≠none)) := by
  unfold World.inStep World.covered at *
  cases hp : w.presented with
  | nothing => exact .inl ⟨rfl,by simpa [hp] using hc⟩
  | alert feed =>
    refine .inr ⟨by simp,fun _ hnone => ?_⟩
    simp [hp,hnone] at hc
  | login ui => exact .inr ⟨by simp,by simp [Presented.loginId]⟩

theorem InStep.launched {w : World} (detached : Bool) (hw : InStep w)
    (hc : w.inStep detached .launched=true) :
    InStep ({w with launchBlock := false}.presentLogin (w.presented==Presented.nothing)) := by
  have hnumbered : Numbered {w with launchBlock := false} :=
    ⟨hw.numbered.presented,hw.numbered.requests,hw.numbered.callbacks⟩
  rcases launched_cases detached w hc with ⟨hnothing,huser⟩ | ⟨hother,huser⟩
  · have heffective : (w.presented==Presented.nothing)=true := by simpa using hnothing
    rw [heffective]
    exact InStep.presentLogin hnumbered huser
  · have heffective : (w.presented==Presented.nothing)=false := by simpa using hother
    rw [heffective]
    exact ⟨hnumbered.presentLogin false,fun hopen => .inr (huser hopen),hw.covered,hw.closing⟩

theorem InStep.succeed {w : World} (detached : Bool) (hw : InStep w) (k : Nat) (request : Request)
    (uid : String) (hk : w.requests[k]?=some request)
    (hc : w.inStep detached (.answer k (.ok uid))=true) :
    InStep (w.answered k request (.ok uid)) where
  numbered := hw.numbered.answered k request (.ok uid) hk
  uncovered := fun _ => .inr (Option.some_ne_none uid)
  closing := fun _ => Option.some_ne_none uid
  covered := by
    intro hcovered _
    change (w.callbacks++[(⟨request,none⟩ : Callback)]).any
      (Callback.closes w.presented.loginId)=true
    have hcovered' : w.covered=true := hcovered
    rw [closing_concat]
    cases request with
    | createUser =>
      have hclosing : w.closing=true := by simpa [World.inStep,hk,hcovered'] using hc
      rw [hclosing,Bool.true_or]
    | signIn id =>
      have hor : w.closing=true ∨ w.presented.loginId=some id := by
        simpa [World.inStep,hk,hcovered'] using hc
      rcases hor with hclosing | hid
      · rw [hclosing,Bool.true_or]
      · simp [Callback.closes,hid]

theorem InStep.signedIn {w : World} (detached : Bool) (hw : InStep w) (k login : Nat)
    (hk : w.callbacks[k]?=some ⟨.signIn login,none⟩)
    (hc : w.inStep detached (.runCallback k)=true) : InStep (w.signedIn k login) := by
  have hnumbered := hw.numbered.transition detached _ _ (.signedIn k login hk)
  have hguard : w.presented.loginId≠some login ∨ w.dismisses login=true := by
    simpa [World.inStep,hk] using hc
  rw [World.signedIn_eq] at hnumbered ⊢
  rcases w.signedIn_presented k login with ⟨hnone,hdismisses⟩ | ⟨hsame,hstays⟩
  · -- the login UI goes; its callback was closing it, so that somebody is signed in
    have hmem : (⟨.signIn login,none⟩ : Callback)∈w.callbacks := List.mem_of_getElem? hk
    have hlogin : w.presented.loginId=some login := dismisses_loginId w login hdismisses
    have hclosing : w.closing=true := by
      apply List.any_eq_true.mpr
      exact ⟨_,hmem,by simp [Callback.closes,hlogin]⟩
    have huser : w.currentUser≠none := hw.closing hclosing
    refine ⟨hnumbered,fun _ => .inr huser,?_,fun _ => huser⟩
    intro hcovered
    simp [World.covered,hnone,Presented.loginId] at hcovered
  · have hne : w.presented.loginId≠some login := by
      rcases hguard with hne | hdismisses
      · exact hne
      · rw [hstays] at hdismisses
        contradiction
    have hidle : Callback.closes w.presented.loginId ⟨.signIn login,none⟩=false := by
      simpa [Callback.closes] using hne
    have herased := closing_eraseIdx w k _ hk hidle
    apply hw.congr _ hnumbered
    · exact World.covered_congr w _ hsame
    · rw [←herased]
      exact closing_congr {w with callbacks := w.callbacks.eraseIdx k} _ hsame rfl
    · rfl
    · rfl

theorem step_inStep (detached : Bool) (w : World) (e : Event) (v : World) (hw : InStep w)
    (hc : w.inStep detached e=true) (h : w.step detached e=some v) : InStep v := by
  obtain ⟨_,ht⟩ := step_transition detached w v e h
  have hnumbered : Numbered v := hw.numbered.transition detached e v ht
  cases ht with
  | touch e _ presented requests _ hp =>
    have hcovered : ({w with presented := presented} : World).covered=w.covered :=
      World.covered_congr w _ hp
    have hclosing : ({w with presented := presented} : World).closing=w.closing :=
      closing_congr w _ hp rfl
    exact hw.congr _ hnumbered hcovered hclosing rfl rfl
  | logout feed hp =>
    have heffective : (feed==w.generation || detached)=true := by
      simpa only [World.inStep,World.logoutPresents,hp] using hc
    have hclosed : Numbered ({w with presented := .nothing}.setUser none) :=
      ⟨fun id hid => by contradiction,hw.numbered.requests,hw.numbered.callbacks⟩
    rw [heffective]
    exact InStep.presentLogin hclosed rfl
  | launched => exact hw.launched detached hc
  | succeed k request uid hk => exact hw.succeed detached k request uid hk hc
  | fail k request error =>
    have hclosing : (w.answered k request (.error error)).closing=w.closing := by
      have hfailed : Callback.rebuilds ⟨request,some error⟩=false := by cases request <;> rfl
      have hidle := closes_of_rebuilds w.presented.loginId ⟨request,some error⟩ hfailed
      have hconcat := closing_concat w ⟨request,some error⟩
      rw [hidle,Bool.or_false] at hconcat
      exact hconcat
    exact hw.congr _ hnumbered rfl hclosing rfl rfl
  | idle k c hk hidle =>
    have hclosing := closing_eraseIdx w k c hk (closes_of_rebuilds _ c hidle)
    exact hw.congr _ hnumbered rfl hclosing rfl rfl
  | signedIn k login hk => exact hw.signedIn detached k login hk hc
  | header uid => exact hw.congr _ hnumbered rfl rfl rfl rfl
  | trap => exact hw.congr _ hnumbered rfl rfl rfl rfl
  | fetch k f value => exact hw.congr _ hnumbered rfl rfl rfl rfl
  | load => exact hw.congr _ hnumbered rfl rfl rfl rfl
  | forcedSignOut => contradiction

/-- With no callback of Auth and no launch check outstanding, the login UI covers the tab bar
exactly if nobody is signed in. -/
theorem covered_iff_of_inStep (detached : Bool) (currentUser : Option String) (es : List Event)
    (w : World) (h : (machine detached).run (World.launch currentUser) es=some w)
    (hc : (machine detached).Meets (fun w e => w.inStep detached e=true)
      (World.launch currentUser) es) (hcallbacks : w.callbacks=[]) (hblock : w.launchBlock=false) :
    w.covered=true ↔ w.currentUser=none := by
  have hw : InStep w := (machine detached).run_invariant_of_meets _ InStep (step_inStep detached)
    _ w es (launch_inStep currentUser) hc h
  constructor
  · intro hcovered
    by_contra huser
    have hclosing : w.closing=true := hw.covered hcovered huser
    rw [World.closing,hcallbacks] at hclosing
    contradiction
  · intro huser
    by_contra hopen
    rcases hw.uncovered (by simpa using hopen) with hlaunch | hsome
    · rw [hblock] at hlaunch
      contradiction
    · exact hsome huser

/-- A failed sign-up, a sign-in, a cancelled logout, one that `signOut` fails, and one that
succeeds. -/
def loggedOut : List Event :=
  [.launched,.showSignUp,.openPicker,.closePicker,.tapSignUp,.answer 0 (.error "taken"),
    .runCallback 0,.back,.tapSignIn,.answer 0 (.ok "uid1"),.runCallback 0,.tapLogout,.cancelLogout,
    .tapLogout,.confirmLogout (some "keychain"),.tapLogout,.confirmLogout none]

theorem covered_iff_of_inStep_loggedOut :
    ∃w,(machine false).run (World.launch none) loggedOut=some w ∧ w.currentUser=none ∧
      (w.covered=true ↔ w.currentUser=none) := by
  refine ⟨_,rfl,rfl,?_⟩
  exact covered_iff_of_inStep false none loggedOut _ rfl (by decide) rfl rfl

/-- A sign-up succeeds, and its login UI stays. -/
def signedUp : List Event :=
  [.launched,.showSignUp,.tapSignUp,.answer 0 (.ok "uid1"),.runCallback 0]

theorem not_covered_iff : ¬∀(currentUser : Option String) (es : List Event) (w : World),
    (∀e∈es,e≠.forcedSignOut) → (machine false).run (World.launch currentUser) es=some w →
    w.requests=[] → w.callbacks=[] → w.launchBlock=false →
    (w.covered=true ↔ w.currentUser=none) := by
  intro h
  have hiff := h none signedUp _ (by simp [signedUp]) rfl rfl rfl rfl
  exact absurd (hiff.mp rfl) (by decide)

end ShareImage.Session
