import ShareImage.Session.Agreement

namespace ShareImage.Session

open Framework

/-- The error that the callback of an answered request is given. -/
def failure : Except String String → Option String
  | .ok _ => none
  | .error error => some error

/-- The event sends a request to Auth. -/
def Event.asks : Event → Bool
  | .tapSignIn | .tapSignUp => true
  | _ => false

def Event.answers : Event → Bool
  | .answer _ _ => true
  | _ => false

def Event.runs : Event → Bool
  | .runCallback _ => true
  | _ => false

/-- What one event does to the requests and to the callbacks: a request is sent, or answered with
its callback, or a callback runs, or nothing. -/
inductive Traffic (w v : World) : Event → Prop
  | signIn (id : Nat) (hp : w.presented=.login ⟨id,.login⟩)
      (hr : v.requests=w.requests++[.signIn id]) (hc : v.callbacks=w.callbacks) :
      Traffic w v .tapSignIn
  | signUp (hr : v.requests=w.requests++[.createUser]) (hc : v.callbacks=w.callbacks) :
      Traffic w v .tapSignUp
  | answer (k : Nat) (result : Except String String) (request : Request)
      (hk : w.requests[k]?=some request) (hr : v.requests=w.requests.eraseIdx k)
      (hc : v.callbacks=w.callbacks++[⟨request,failure result⟩]) :
      Traffic w v (.answer k result)
  | run (k : Nat) (c : Callback) (hk : w.callbacks[k]?=some c) (hr : v.requests=w.requests)
      (hc : v.callbacks=w.callbacks.eraseIdx k) : Traffic w v (.runCallback k)
  | other (e : Event) (hasks : e.asks=false) (hanswers : e.answers=false) (hruns : e.runs=false)
      (hr : v.requests=w.requests) (hc : v.callbacks=w.callbacks) : Traffic w v e

section Step

variable {detached : Bool} {w v : World} {e : Event}

theorem touchTabs_traffic (h : w.touchTabs e=some v) : Traffic w v e := by
  unfold World.touchTabs at h
  split at h
  · cases h
    exact .other _ rfl rfl rfl rfl rfl
  · split at h
    · cases h
      exact .other _ rfl rfl rfl rfl rfl
    · contradiction
  · contradiction

theorem touchAlert_traffic (feed : Nat) (h : w.touchAlert detached feed e=some v) :
    Traffic w v e := by
  unfold World.touchAlert at h
  split at h
  · cases h
    exact .other _ rfl rfl rfl rfl rfl
  · split at h
    · cases h
      exact .other _ rfl rfl rfl rfl rfl
    · cases h
      exact .other _ rfl rfl rfl rfl rfl
  · contradiction

theorem touchLogin_traffic (ui : LoginUI) (hp : w.presented=.login ui)
    (h : w.touchLogin e ui=some v) : Traffic w v e := by
  unfold World.touchLogin at h
  split at h
  · cases h
    exact .signIn _ hp rfl rfl
  · cases h
    exact .other _ rfl rfl rfl rfl rfl
  · cases h
    exact .other _ rfl rfl rfl rfl rfl
  · cases h
    exact .other _ rfl rfl rfl rfl rfl
  · cases h
    exact .other _ rfl rfl rfl rfl rfl
  · cases h
    exact .signUp rfl rfl
  · contradiction

theorem touch_traffic (h : w.touch detached e=some v) : Traffic w v e := by
  unfold World.touch at h
  cases hp : w.presented with
  | nothing =>
    simp only [hp] at h
    exact touchTabs_traffic h
  | alert feed =>
    simp only [hp] at h
    exact touchAlert_traffic feed h
  | login ui =>
    simp only [hp] at h
    exact touchLogin_traffic ui hp h

theorem call_traffic (w : World) (c : Callback) :
    (w.call c).requests=w.requests ∧ (w.call c).callbacks=w.callbacks := by
  rcases call_eq w c with ⟨_,heq⟩ | ⟨login,_,heq⟩
  · rw [heq]
    exact ⟨rfl,rfl⟩
  · rw [heq,World.dismiss_eq]
    exact ⟨rfl,rfl⟩

theorem react_traffic (h : w.react e=some v) : Traffic w v e := by
  unfold World.react at h
  split at h
  · split at h
    · cases h
      exact .other _ rfl rfl rfl rfl rfl
    · contradiction
  · rename_i k result
    obtain ⟨request,hrequest,rfl⟩ := Option.map_eq_some_iff.mp h
    cases result with
    | ok uid => exact .answer k _ request hrequest rfl rfl
    | error error => exact .answer k _ request hrequest rfl rfl
  · rename_i k
    obtain ⟨c,hc,rfl⟩ := Option.map_eq_some_iff.mp h
    obtain ⟨hr,hcallbacks⟩ := call_traffic {w with callbacks := w.callbacks.eraseIdx k} c
    exact .run k c hc hr hcallbacks
  · split at h
    · split at h
      · cases h
        exact .other _ rfl rfl rfl rfl rfl
      · cases h
        exact .other _ rfl rfl rfl rfl rfl
    · contradiction
  · obtain ⟨f,_,rfl⟩ := Option.map_eq_some_iff.mp h
    exact .other _ rfl rfl rfl rfl rfl
  · split at h
    · cases h
      exact .other _ rfl rfl rfl rfl rfl
    · contradiction
  · cases h
    exact .other _ rfl rfl rfl rfl rfl
  · contradiction

theorem step_traffic (h : w.step detached e=some v) : Traffic w v e := by
  unfold World.step at h
  split at h
  · contradiction
  · rcases Option.or_eq_some_iff.mp h with hreact | ⟨_,htouch⟩
    · exact react_traffic hreact
    · exact touch_traffic htouch

/-- A login UI goes away only when the callback of a successful sign-in of its own runs. -/
theorem step_leaves (h : w.step detached e=some v) (id : Nat)
    (hshown : w.presented.loginId=some id) (hgone : v.presented.loginId≠some id) :
    ∃k,e=.runCallback k ∧ w.callbacks[k]?=some ⟨.signIn id,none⟩ ∧ w.dismisses id=true := by
  obtain ⟨_,ht⟩ := step_transition detached w v e h
  cases ht with
  | touch e _ presented _ _ hp => exact absurd (hp.trans hshown) hgone
  | logout feed hp =>
    rw [hp] at hshown
    contradiction
  | launched =>
    -- over a login UI the block of the launch presents nothing
    have heffective : (w.presented==Presented.nothing)=false := by
      cases hp : w.presented with
      | nothing =>
        rw [hp] at hshown
        contradiction
      | alert | login => rfl
    rw [heffective] at hgone
    exact absurd hshown hgone
  | signedIn k login hk =>
    rcases w.signedIn_presented k login with ⟨_,hdismisses⟩ | ⟨hsame,_⟩
    · have hlogin : w.presented.loginId=some login := dismisses_loginId w login hdismisses
      have hid : login=id := Option.some.inj (hlogin.symm.trans hshown)
      subst hid
      exact ⟨k,rfl,hk,hdismisses⟩
    · exact absurd (hsame.trans hshown) hgone
  | succeed | fail | idle | header | trap | fetch | load | forcedSignOut =>
    exact absurd hshown hgone

end Step

section History

variable (detached : Bool)

/-- The sign-in button has been tapped on the login UI. -/
def Asked (s : World) (es : List Event) (id : Nat) : Prop :=
  (machine detached).Happened (fun _ u e => e=.tapSignIn ∧ u.presented=.login ⟨id,.login⟩) s es

/-- Auth has answered with success to a sign-in that the login UI has asked for. -/
def Granted (s : World) (es : List Event) (id : Nat) : Prop :=
  (machine detached).Happened (fun pre u e => ∃k uid,e=.answer k (.ok uid) ∧
    u.requests[k]?=some (.signIn id) ∧ Asked detached s pre id) s es

variable (currentUser : Option String) (es : List Event) (w : World)
variable (h : (machine detached).run (World.launch currentUser) es=some w)
include h

theorem run_asked (id : Nat) (hid : .signIn id∈w.requests) :
    Asked detached (World.launch currentUser) es id := by
  apply (machine detached).run_happened (fun w id => .signIn id∈w.requests)
    (fun id _ u e => e=.tapSignIn ∧ u.presented=.login ⟨id,.login⟩) _ _ _ es w h id hid
  · intro id hid
    contradiction
  · intro es u e v _ hstep id hid
    cases step_traffic hstep with
    | signIn shown hp hr =>
      rw [hr] at hid
      rcases List.mem_append.mp hid with hid | hid
      · exact .inl hid
      · have hshown : id=shown := by simpa using hid
        exact .inr ⟨rfl,hshown ▸ hp⟩
    | signUp hr =>
      rw [hr] at hid
      rcases List.mem_append.mp hid with hid | hid
      · exact .inl hid
      · have hfalse : Request.signIn id=.createUser := List.mem_singleton.mp hid
        contradiction
    | answer k result request hk hr => exact .inl (List.mem_of_mem_eraseIdx (hr ▸ hid))
    | run k c hk hr | other e _ _ _ hr => exact .inl (hr ▸ hid)

theorem run_granted (id : Nat) (hid : ⟨.signIn id,none⟩∈w.callbacks) :
    Granted detached (World.launch currentUser) es id := by
  apply (machine detached).run_happened (fun w id => ⟨.signIn id,none⟩∈w.callbacks)
    (fun id pre u e => ∃k uid,e=.answer k (.ok uid) ∧ u.requests[k]?=some (.signIn id) ∧
      Asked detached (World.launch currentUser) pre id) _ _ _ es w h id hid
  · intro id hid
    contradiction
  · intro es u e v hu hstep id hid
    cases step_traffic hstep with
    | answer k result request hk hr hc =>
      rw [hc] at hid
      rcases List.mem_append.mp hid with hid | hid
      · exact .inl hid
      · obtain ⟨hrequest,hnone⟩ := Callback.mk.inj (List.mem_singleton.mp hid)
        subst hrequest
        have hasked := run_asked detached currentUser es u hu id (List.mem_of_getElem? hk)
        cases result with
        | ok uid => exact .inr ⟨k,uid,rfl,hk,hasked⟩
        | error error => contradiction
    | run k c hk hr hc => exact .inl (List.mem_of_mem_eraseIdx (hc ▸ hid))
    | signIn _ _ _ hc | signUp _ hc | other _ _ _ _ _ hc => exact .inl (hc ▸ hid)

end History

/-- There is one way past a login UI. Where it has been on screen and later is not, the callback of
a sign-in has run while it was; Auth had answered that sign-in with success, and before that the
sign-in button had been tapped on that login UI. -/
theorem login_left_by_own_sign_in (detached : Bool) (currentUser : Option String)
    (pre es : List Event) (before w : World) (id : Nat)
    (hpre : (machine detached).run (World.launch currentUser) pre=some before)
    (h : (machine detached).run before es=some w) (hshown : before.presented.loginId=some id)
    (hgone : w.presented.loginId≠some id) :
    ∃a k b u,es=a++.runCallback k::b ∧ (machine detached).run before a=some u ∧
      u.callbacks[k]?=some ⟨.signIn id,none⟩ ∧ u.dismisses id=true ∧
      Granted detached (World.launch currentUser) (pre++a) id := by
  obtain ⟨a,e,b,u,v,hes,ha,hstep,_,hu,hv⟩ := (machine detached).run_first
    (fun v => v.presented.loginId≠some id) before w es (fun hne => hne hshown) h hgone
  obtain ⟨k,rfl,hk,hdismisses⟩ := step_leaves hstep id (not_not.mp hu) hv
  have hwhole : (machine detached).run (World.launch currentUser) (pre++a)=some u := by
    rw [Machine.run_append,hpre]
    exact ha
  have hgranted := run_granted detached currentUser _ u hwhole id (List.mem_of_getElem? hk)
  exact ⟨a,k,b,u,hes,ha,hk,hdismisses,hgranted⟩

/-- A sign-up succeeds under the login UI, which stays; then so does a sign-in. -/
def signedInAfterwards : List Event :=
  [.showSignUp,.tapSignUp,.answer 0 (.ok "uid1"),.runCallback 0,.back,.tapSignIn,
    .answer 0 (.ok "uid1"),.runCallback 0]

theorem login_left_by_own_sign_in_afterwards :
    ∃before w,(machine false).run (World.launch none) [.launched]=some before ∧
      (machine false).run before signedInAfterwards=some w ∧ w.presented=.nothing ∧
      ∃a k b u,signedInAfterwards=a++.runCallback k::b ∧ (machine false).run before a=some u ∧
        u.callbacks[k]?=some ⟨.signIn 0,none⟩ ∧ u.dismisses 0=true ∧
        Granted false (World.launch none) ([.launched]++a) 0 := by
  refine ⟨_,_,rfl,rfl,rfl,?_⟩
  exact login_left_by_own_sign_in false none [.launched] signedInAfterwards _ _ 0 rfl rfl rfl
    (by decide)

end ShareImage.Session
