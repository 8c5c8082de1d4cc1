import ShareImage.Session.World

namespace ShareImage.Session

open Framework

/-- The callback is that of a successful sign-in. -/
def Callback.rebuilds (c : Callback) : Bool :=
  match c with
  | ⟨.signIn _,none⟩ => true
  | _ => false

/-- The event is a touch of the screen. -/
def Event.isTouch : Event → Bool
  | .tapSignIn | .showSignUp | .back | .openPicker | .closePicker | .tapSignUp => true
  | .select _ | .tapLogout | .cancelLogout | .confirmLogout _ => true
  | _ => false

/-- `dismiss` of the login controller takes the login UI away. -/
def World.dismisses (w : World) (login : Nat) : Bool :=
  match w.presented with
  | .login ui => ui.id==login && ui.screen != .photoPicker
  | _ => false

/-- The login controller that a confirmed logout presents gets on screen. -/
def World.logoutPresents (detached : Bool) (w : World) : Bool :=
  match w.presented with
  | .alert feed => feed==w.generation || detached
  | _ => true

namespace World

theorem covered_congr (w v : World) (h : v.presented.loginId=w.presented.loginId) :
    v.covered=w.covered := by
  rw [World.covered,World.covered,h]

theorem setUser_changes (w : World) (user : Option String) :
    (w.currentUser=user ∧ (w.setUser user).changes=w.changes) ∨
    (w.setUser user).changes=w.changes+1 := by
  unfold setUser
  by_cases h : w.currentUser=user
  · exact .inl ⟨h,if_pos h⟩
  · exact .inr (if_neg h)

/-- `dismiss` changes what is presented and nothing else. -/
theorem dismiss_eq (w : World) (login : Nat) :
    w.dismiss login={w with presented := (w.dismiss login).presented} := by
  unfold dismiss
  split
  · split <;> rfl
  · rfl

theorem dismiss_presented (w : World) (login : Nat) :
    (w.dismiss login).presented=.nothing ∧ w.dismisses login=true ∨
    (w.dismiss login).presented.loginId=w.presented.loginId ∧ w.dismisses login=false := by
  unfold dismiss dismisses
  cases hp : w.presented with
  | nothing => simp [hp]
  | alert feed => simp [hp]
  | login ui =>
    obtain ⟨id,screen⟩ := ui
    by_cases hid : id=login
    · cases screen with
      | login => simp [hid]
      | signUp => simp [hid]
      | photoPicker => simp [hid,Presented.loginId]
    · simp [hp,hid]

/-- After the callback number `k`, of a successful sign-in on the login controller, has run. -/
def signedIn (w : World) (k login : Nat) : World :=
  ({w with callbacks := w.callbacks.eraseIdx k}.configureViewControllers).dismiss login

theorem signedIn_eq (w : World) (k login : Nat) : w.signedIn k login={w with
    callbacks := w.callbacks.eraseIdx k
    generation := w.generation+1
    builtAt := w.changes
    presented := (w.signedIn k login).presented} := dismiss_eq ..

theorem signedIn_presented (w : World) (k login : Nat) :
    (w.signedIn k login).presented=.nothing ∧ w.dismisses login=true ∨
    (w.signedIn k login).presented.loginId=w.presented.loginId ∧ w.dismisses login=false :=
  dismiss_presented ..

end World

/-- What one event does to the world. The touches that log nobody out change neither the user nor
whether, and by which login UI, the tab bar is covered. -/
inductive Transition (detached : Bool) (w : World) : Event → World → Prop
  | touch (e : Event) (selected : Tab) (presented : Presented) (requests : List Request)
      (he : e.isTouch=true) (hpresented : presented.loginId=w.presented.loginId)
      (hrequests : ∀id,.signIn id∈requests → .signIn id∈w.requests ∨ w.presented.loginId=some id) :
      Transition detached w e
        {w with selected := selected,presented := presented,requests := requests}
  | logout (feed : Nat) (h : w.presented=.alert feed) :
      Transition detached w (.confirmLogout none)
        (({w with presented := .nothing}.setUser none).presentLogin
          (feed==w.generation || detached))
  | launched (h : w.launchBlock=true) :
      Transition detached w .launched
        ({w with launchBlock := false}.presentLogin (w.presented==Presented.nothing))
  | succeed (k : Nat) (request : Request) (uid : String) (h : w.requests[k]?=some request) :
      Transition detached w (.answer k (.ok uid)) (w.answered k request (.ok uid))
  | fail (k : Nat) (request : Request) (error : String) (h : w.requests[k]?=some request) :
      Transition detached w (.answer k (.error error)) (w.answered k request (.error error))
  | idle (k : Nat) (c : Callback) (h : w.callbacks[k]?=some c) (hc : c.rebuilds=false) :
      Transition detached w (.runCallback k) {w with callbacks := w.callbacks.eraseIdx k}
  | signedIn (k login : Nat) (h : w.callbacks[k]?=some ⟨.signIn login,none⟩) :
      Transition detached w (.runCallback k) (w.signedIn k login)
  | header (uid : String) (hs : w.selected=.profile) (hw : w.covered=false)
      (h : w.currentUser=some uid) :
      Transition detached w .requestHeader {w with fetches := w.fetches++[⟨w.generation,uid⟩]}
  | trap (hs : w.selected=.profile) (hw : w.covered=false) (h : w.currentUser=none) :
      Transition detached w .requestHeader {w with trapped := true}
  | fetch (k : Nat) (f : Fetch) (value : AnyObject) (h : w.fetches[k]?=some f) :
      Transition detached w (.completeFetch k value)
        {w with
          fetches := w.fetches.eraseIdx k
          profile := Function.update w.profile f.generation
            ((w.profile f.generation).headerCallback ⟨f.uid,value⟩)}
  | load (hs : w.selected=.search) (hw : w.covered=false) (h : w.generation∉w.observers) :
      Transition detached w .loadSearch {w with observers := w.observers++[w.generation]}
  | forcedSignOut : Transition detached w .forcedSignOut (w.setUser none)

section Touch

variable {detached : Bool} {w v : World} {e : Event}

/-- A touch that changes what is presented, and not by which login UI the tab bar is covered. -/
theorem Transition.presents (presented : Presented) (he : e.isTouch=true)
    (h : presented.loginId=w.presented.loginId) :
    Transition detached w e {w with presented := presented} :=
  .touch e w.selected presented w.requests he h fun _ hid => .inl hid

/-- A touch that sends a request, and a sign-in only from the login UI on screen. -/
theorem Transition.sends (request : Request) (he : e.isTouch=true)
    (h : ∀id,request=.signIn id → w.presented.loginId=some id) :
    Transition detached w e {w with requests := w.requests++[request]} := by
  apply Transition.touch e w.selected w.presented (w.requests++[request]) he rfl
  intro id hid
  rcases List.mem_append.mp hid with hid | hid
  · exact .inl hid
  · have hrequest : request=.signIn id := (List.mem_singleton.mp hid).symm
    exact .inr (h id hrequest)

theorem touchTabs_transition (hp : w.presented=.nothing) (h : w.touchTabs e=some v) :
    Transition detached w e v := by
  have hopen : w.presented.loginId=none := by rw [hp]; rfl
  unfold World.touchTabs at h
  split at h
  · cases h
    exact .touch _ _ w.presented w.requests rfl rfl fun _ hid => .inl hid
  · split at h
    · cases h
      exact .presents _ rfl hopen.symm
    · contradiction
  · contradiction

theorem touchAlert_transition (feed : Nat) (hp : w.presented=.alert feed)
    (h : w.touchAlert detached feed e=some v) : Transition detached w e v := by
  have hopen : w.presented.loginId=none := by rw [hp]; rfl
  unfold World.touchAlert at h
  split at h
  · cases h
    exact .presents _ rfl hopen.symm
  · rename_i error
    cases error with
    | none =>
      cases h
      exact .logout feed hp
    | some error =>
      cases h
      exact .presents _ rfl hopen.symm
  · contradiction

theorem touchLogin_transition (ui : LoginUI) (hp : w.presented=.login ui)
    (h : w.touchLogin e ui=some v) : Transition detached w e v := by
  have hcovered : w.presented.loginId=some ui.id := by rw [hp]; rfl
  unfold World.touchLogin at h
  split at h
  · cases h
    apply Transition.sends _ rfl
    rintro id ⟨⟩
    exact hcovered
  · cases h
    exact .presents _ rfl hcovered.symm
  · cases h
    exact .presents _ rfl hcovered.symm
  · cases h
    exact .presents _ rfl hcovered.symm
  · cases h
    exact .presents _ rfl hcovered.symm
  · cases h
    apply Transition.sends _ rfl
    intro id hid
    contradiction
  · contradiction

end Touch

theorem touch_transition (detached : Bool) (w v : World) (e : Event)
    (h : w.touch detached e=some v) : Transition detached w e v := by
  unfold World.touch at h
  cases hp : w.presented with
  | nothing =>
    simp only [hp] at h
    exact touchTabs_transition hp h
  | alert feed =>
    simp only [hp] at h
    exact touchAlert_transition feed hp h
  | login ui =>
    simp only [hp] at h
    exact touchLogin_transition ui hp h

/-- Only the callback of a successful sign-in does anything to the session. -/
theorem call_eq (w : World) (c : Callback) :
    (c.rebuilds=false ∧ w.call c=w) ∨
    ∃login,c=⟨.signIn login,none⟩ ∧ w.call c=w.configureViewControllers.dismiss login := by
  obtain ⟨request,error⟩ := c
  cases request with
  | createUser => exact .inl ⟨rfl,rfl⟩
  | signIn login =>
    cases error with
    | none => exact .inr ⟨login,rfl,rfl⟩
    | some error => exact .inl ⟨rfl,rfl⟩

theorem react_transition (detached : Bool) (w v : World) (e : Event) (h : w.react e=some v) :
    Transition detached w e v := by
  unfold World.react at h
  split at h
  · split at h
    · rename_i hblock
      cases h
      exact .launched hblock
    · contradiction
  · rename_i k result
    obtain ⟨request,hrequest,hv⟩ := Option.map_eq_some_iff.mp h
    subst hv
    cases result with
    | ok uid => exact .succeed k request uid hrequest
    | error error => exact .fail k request error hrequest
  · rename_i k
    obtain ⟨c,hc,hv⟩ := Option.map_eq_some_iff.mp h
    subst hv
    rcases call_eq {w with callbacks := w.callbacks.eraseIdx k} c with ⟨hidle,heq⟩ | ⟨login,rfl,heq⟩
    · rw [heq]
      exact .idle k c hc hidle
    · rw [heq]
      exact .signedIn k login hc
  · split at h
    · rename_i hguard
      obtain ⟨hs,hw⟩ : w.selected=.profile ∧ w.covered=false := by simpa using hguard
      split at h
      · rename_i uid hu
        rw [UserProfileCollectionViewController.viewForSupplementaryElement_eq] at hu
        cases h
        exact .header uid hs hw hu
      · rename_i hu
        rw [UserProfileCollectionViewController.viewForSupplementaryElement_eq] at hu
        cases h
        exact .trap hs hw hu
    · contradiction
  · rename_i k value
    obtain ⟨f,hf,hv⟩ := Option.map_eq_some_iff.mp h
    subst hv
    exact .fetch k f value hf
  · split at h
    · rename_i hguard
      obtain ⟨⟨hs,hw⟩,hobs⟩ : (w.selected=.search ∧ w.covered=false) ∧
          w.generation∉w.observers := by simpa using hguard
      cases h
      exact .load hs hw hobs
    · contradiction
  · cases h
    exact .forcedSignOut
  · contradiction

theorem step_transition (detached : Bool) (w v : World) (e : Event)
    (h : w.step detached e=some v) : w.trapped=false ∧ Transition detached w e v := by
  unfold World.step at h
  split at h
  · contradiction
  · rename_i htrapped
    refine ⟨by simpa using htrapped,?_⟩
    rcases Option.or_eq_some_iff.mp h with hreact | ⟨_,htouch⟩
    · exact react_transition detached w v e hreact
    · exact touch_transition detached w v e htouch

end ShareImage.Session
