import ShareImage.Session.Gate

namespace ShareImage.Session

open Framework

/-- The login UI whose sign-in the event answers with success. -/
def World.grants (w : World) : Event → List Nat
  | .answer k (.ok _) =>
    match w.requests[k]? with
    | some (.signIn id) => [id]
    | _ => []
  | _ => []

/-- How often the tabs have been rebuilt or will be by callbacks on the main queue. -/
def World.rebuildings (w : World) : Nat := w.generation+w.callbacks.countP Callback.rebuilds

section Step

variable {detached : Bool} {w v : World} {e : Event}

/-- The tabs are rebuilt by the callback of a successful sign-in, and by nothing else. -/
theorem step_generation (h : w.step detached e=some v) :
    (∃(k : Nat) (c : Callback),e=.runCallback k ∧ w.callbacks[k]?=some c ∧ c.rebuilds=true ∧
      v.generation=w.generation+1) ∨
    ((∀(k : Nat) (c : Callback),e=.runCallback k → w.callbacks[k]?=some c → c.rebuilds=false) ∧
      v.generation=w.generation) := by
  obtain ⟨_,ht⟩ := step_transition detached w v e h
  cases ht with
  | signedIn k login hk =>
    left
    rw [World.signedIn_eq]
    exact ⟨k,_,rfl,hk,rfl,rfl⟩
  | idle k c hk hidle =>
    refine .inr ⟨?_,rfl⟩
    rintro _ x ⟨⟩ hx
    have hsame : c=x := Option.some.inj (hk.symm.trans hx)
    exact hsame ▸ hidle
  | touch e selected presented requests he =>
    refine .inr ⟨?_,rfl⟩
    rintro k c rfl
    contradiction
  | logout | launched | succeed | fail | header | trap | fetch | load | forcedSignOut =>
    refine .inr ⟨?_,rfl⟩
    intro k c hrun
    contradiction

theorem grants_eq_nil (w : World) (e : Event) (he : e.answers=false) : w.grants e=[] := by
  cases e with
  | answer k result => contradiction
  | _ => rfl

theorem rebuilds_answer (w : World) (k : Nat) (result : Except String String) (request : Request)
    (hk : w.requests[k]?=some request) :
    (w.grants (.answer k result)).length=
      if Callback.rebuilds ⟨request,failure result⟩ then 1 else 0 := by
  cases result with
  | error error => cases request <;> rfl
  | ok uid =>
    simp only [World.grants,hk]
    cases request <;> rfl

/-- One event keeps the balance of the tabs. -/
theorem step_rebuildings (h : w.step detached e=some v) :
    v.rebuildings=w.rebuildings+(w.grants e).length := by
  have same (hcallbacks : v.callbacks=w.callbacks) (hanswers : e.answers=false)
      (hruns : e.runs=false) : v.rebuildings=w.rebuildings+(w.grants e).length := by
    rcases step_generation h with ⟨k,_,rfl,_⟩ | ⟨_,hgeneration⟩
    · contradiction
    · rw [World.rebuildings,World.rebuildings,hcallbacks,hgeneration,grants_eq_nil w e hanswers]
      rfl
  cases step_traffic h with
  | signIn shown hp hr hc => exact same hc rfl rfl
  | signUp hr hc => exact same hc rfl rfl
  | other e _ hanswers hruns hr hc => exact same hc hanswers hruns
  | answer k result request hk hr hc =>
    have hgeneration : v.generation=w.generation := by
      rcases step_generation h with ⟨_,_,hrun,_⟩ | ⟨_,hgeneration⟩
      · contradiction
      · exact hgeneration
    rw [World.rebuildings,World.rebuildings,hc,hgeneration,rebuilds_answer w k result request hk,
      countP_concat]
    omega
  | run k c hk hr hc =>
    have hcount : w.callbacks.countP Callback.rebuilds=
        (w.callbacks.eraseIdx k).countP Callback.rebuilds+if c.rebuilds then 1 else 0 := by
      rw [←(cons_eraseIdx_perm w.callbacks k c hk).countP_eq,List.countP_cons]
    have hnone : (w.grants (.runCallback k)).length=0 := rfl
    rw [World.rebuildings,World.rebuildings,hc,hcount,hnone]
    rcases step_generation h with ⟨j,x,hj,hx,hrebuilds,hgeneration⟩ | ⟨hidle,hgeneration⟩
    · obtain rfl : k=j := by simpa using hj
      have hxc : x=c := Option.some.inj (hx.symm.trans hk)
      rw [hxc] at hrebuilds
      rw [hgeneration,if_pos hrebuilds]
      omega
    · have hstays : c.rebuilds=false := hidle k c rfl hk
      rw [hgeneration,hstays]
      simp

end Step

/-- The accounts of Auth's requests, of their callbacks and of the tabs. -/
structure Balanced (currentUser : Option String) (detached : Bool) (es : List Event) (w : World) :
    Prop where
  requests : es.countP Event.asks=w.requests.length+es.countP Event.answers
  callbacks : es.countP Event.answers=w.callbacks.length+es.countP Event.runs
  tabs : w.rebuildings=
    ((machine detached).log World.grants (World.launch currentUser) es).length

theorem step_balanced (detached : Bool) (currentUser : Option String) (es : List Event)
    (w v : World) (e : Event)
    (hrun : (machine detached).run (World.launch currentUser) es=some w)
    (hw : Balanced currentUser detached es w) (h : w.step detached e=some v) :
    Balanced currentUser detached (es++[e]) v := by
  have hrequests := hw.requests
  have hcallbacks := hw.callbacks
  have htabs : v.rebuildings=
      ((machine detached).log World.grants (World.launch currentUser) (es++[e])).length := by
    rw [(machine detached).log_concat World.grants _ w es e hrun,List.length_append,←hw.tabs]
    exact step_rebuildings h
  have herase (k : Nat) (l : List Callback) (c : Callback) (hk : l[k]?=some c) :
      (l.eraseIdx k).length+1=l.length := by
    have hlt : k<l.length := (List.getElem?_eq_some_iff.mp hk).1
    rw [List.length_eraseIdx_of_lt hlt]
    omega
  refine ⟨?_,?_,htabs⟩
  · rw [countP_concat,countP_concat]
    cases step_traffic h with
    | signIn shown hp hr hc => rw [hr]; simp [Event.asks,Event.answers]; omega
    | signUp hr hc => rw [hr]; simp [Event.asks,Event.answers]; omega
    | answer k result request hk hr hc =>
      have hlt : k<w.requests.length := (List.getElem?_eq_some_iff.mp hk).1
      rw [hr,List.length_eraseIdx_of_lt hlt]
      simp [Event.asks,Event.answers]
      omega
    | run k c hk hr hc => rw [hr]; simp [Event.asks,Event.answers]; omega
    | other e hasks hanswers hruns hr hc => rw [hr,hasks,hanswers]; simp; omega
  · rw [countP_concat,countP_concat]
    cases step_traffic h with
    | signIn shown hp hr hc => rw [hc]; simp [Event.answers,Event.runs]; omega
    | signUp hr hc => rw [hc]; simp [Event.answers,Event.runs]; omega
    | answer k result request hk hr hc => rw [hc]; simp [Event.answers,Event.runs]; omega
    | run k c hk hr hc =>
      have hlength := herase k w.callbacks c hk
      rw [hc]
      simp [Event.answers,Event.runs]
      omega
    | other e hasks hanswers hruns hr hc => rw [hc,hanswers,hruns]; simp; omega

/-- Nothing that Auth is asked is lost or done twice. Each tap of a sign-in or sign-up button sends
one request, which is waiting for its answer, or answered with its one callback waiting, or that
callback has run. The tabs have been rebuilt exactly once for each sign-in granted, save those whose
callback still waits; sign-ups and failures never rebuild them. -/
theorem requests_answered_once (detached : Bool) (currentUser : Option String) (es : List Event)
    (w : World) (h : (machine detached).run (World.launch currentUser) es=some w) :
    es.countP Event.asks=w.requests.length+w.callbacks.length+es.countP Event.runs ∧
    w.generation+w.callbacks.countP Callback.rebuilds=
      ((machine detached).log World.grants (World.launch currentUser) es).length := by
  have hw : Balanced currentUser detached es w := by
    apply (machine detached).run_history (Balanced currentUser detached) (World.launch currentUser)
      ⟨rfl,rfl,rfl⟩ _ es w h
    intro es u e v hu hbalanced hstep
    exact step_balanced detached currentUser es u v e hu hbalanced hstep
  refine ⟨?_,hw.tabs⟩
  have hrequests := hw.requests
  have hcallbacks := hw.callbacks
  omega

/-- Two sign-ins of one login UI; the first callback dismisses it, the second only rebuilds. -/
def grantedTwice : List Event :=
  [.launched,.tapSignIn,.tapSignIn,.answer 1 (.ok "uid1"),.answer 0 (.ok "uid1"),.runCallback 0,
    .runCallback 0]

theorem requests_answered_once_twice :
    ∃w,(machine false).run (World.launch none) grantedTwice=some w ∧ w.generation=2 ∧
      w.generation+w.callbacks.countP Callback.rebuilds=
        ((machine false).log World.grants (World.launch none) grantedTwice).length := by
  refine ⟨_,rfl,rfl,?_⟩
  exact (requests_answered_once false none grantedTwice _ rfl).2

end ShareImage.Session
