import ShareImage.SignUp.Invariant

namespace ShareImage.SignUps

open Framework

/-- What happens to one sign-up. -/
inductive Act where
  | answer (outcome : Outcome)
  | complete
  deriving DecidableEq

/-- The act is done on sign-up `i` in front of the services `s`. -/
def Flow.act (s : Services) (i : Nat) (f : Flow) : Act → Option (Flow × Services)
  | .answer outcome => f.answer s i outcome
  | .complete => f.complete i

/-- Sign-up `i` with the effects it has had. -/
structure Solo where
  flow : Flow
  effects : Services := {}

namespace Solo

def step (i : Nat) (s : Solo) (x : Act) : Option Solo :=
  (s.flow.act s.effects i x).map fun next => ⟨next.1,s.effects++next.2⟩

def machine (i : Nat) : Machine Solo Act := ⟨step i⟩

end Solo

/-- What the event is to sign-up `i`. -/
def Event.onFlow (i : Nat) : Event → Option Act
  | .answer j outcome => if j=i then some (.answer outcome) else none
  | .complete j => if j=i then some .complete else none
  | _ => none

/-- The acts of the run on sign-up `i`, in order. -/
def acts (i : Nat) (es : List Event) : List Act := es.filterMap (Event.onFlow i)

/-- One event acts on one sign-up, or on none and at most starts a new one. -/
theorem step_acts (p : Platform) (w v : World) (e : Event) (h : w.step p e=some v) :
    ((∀i,e.onFlow i=none) ∧ v.services=w.services ∧
      (v.flows=w.flows ∨ e.generates≠none ∧ ∃c,v.flows=w.flows++[{captured := c}])) ∨
    ∃j f x next,w.flows[j]?=some f ∧ f.act w.services j x=some next ∧ v=w.advance j next ∧
      ∀i,e.onFlow i=if j=i then some x else none := by
  have hcases := step_cases p w v e h
  cases e with
  | answer j outcome =>
    simp only [World.step,Option.bind_eq_bind,Option.bind_eq_some_iff] at h
    obtain ⟨f,hf,next,hnext,hv⟩ := h
    exact .inr ⟨j,f,.answer outcome,next,hf,hnext,(Option.some.inj hv).symm,fun _ => rfl⟩
  | complete j =>
    simp only [World.step,Option.bind_eq_bind,Option.bind_eq_some_iff] at h
    obtain ⟨f,hf,next,hnext,hv⟩ := h
    exact .inr ⟨j,f,.complete,next,hf,hnext,(Option.some.inj hv).symm,fun _ => rfl⟩
  | tapSignUp | editSignUp | validateSignUp | pickPhoto | editLogin | validateLogin | tapSignIn |
      completeSignIn =>
    left
    refine ⟨fun _ => rfl,?_⟩
    rcases hcases with hq | ⟨n,uuid,_,_,_,rfl⟩ | ⟨j,f,next,_,_,⟨_,hno,_⟩ | ⟨hno,_⟩⟩
    · exact ⟨hq.services,.inl hq.flows⟩
    · rcases tapSignUp_flows p w n uuid with ⟨hflows,_⟩ | ⟨c,_,hflows⟩
      · exact ⟨rfl,.inl hflows⟩
      · exact ⟨rfl,.inr ⟨by simp_all [Event.generates],c,hflows⟩⟩
    · contradiction
    · contradiction

/-- The services answer a sign-up as if there were no other. -/
theorem Coherent.answer_alone {lossy : Bool} {w : World} (hw : Coherent lossy w) (i : Nat)
    (f : Flow) (hf : w.flows[i]?=some f) (outcome : Outcome) (next : Flow × Services)
    (h : f.answer w.services i outcome=some next) :
    f.answer (w.services.of i) i outcome=some next := by
  have hr : f.Reached lossy i (w.services.of i) := hw.reached i f hf
  have hown := hw.object_own i f hf
  obtain ⟨c,stage,finished⟩ := f
  simp only [Flow.Reached] at hr
  generalize hs : w.services.of i=own at hr hown
  cases hr with
  | creating =>
    cases outcome with
    | success uid | lost uid error =>
      -- an account of its own would be one of all accounts
      simp only [Flow.answer] at h ⊢
      split at h
      · contradiction
      · exact h
    | failure error => exact h
    | nilURL => contradiction
  | resolving uid url =>
    cases outcome with
    | success assigned =>
      obtain ⟨o,ho,hnext⟩ := Option.map_eq_some_iff.mp h
      have hmem := hown o ho
      have ho' : o=c.stored i url := by simpa using hmem
      have hobject : ({auth := [c.account i uid],storage := [c.stored i url]} : Services).object
          c.storageRef=some (c.stored i url) := by
        simp [Services.object,SignUp.stored]
      rw [ho'] at hnext
      simp only [Flow.answer,hobject,Option.map_some]
      rw [hnext]
    | failure error => exact h
    | nilURL => exact h
    | lost => contradiction
  | uploading | saving =>
    cases outcome with
    | success | failure | lost => exact h
    | nilURL => contradiction
  | refused | created | unstored | stored | unresolved | resolved | unsaved | saved |
      createdUnseen | storedUnseen | savedUnseen =>
    contradiction

theorem Coherent.act_alone {lossy : Bool} {w : World} (hw : Coherent lossy w) (i : Nat) (f : Flow)
    (hf : w.flows[i]?=some f) (x : Act) (next : Flow × Services)
    (h : f.act w.services i x=some next) : f.act (w.services.of i) i x=some next := by
  cases x with
  | answer outcome => exact hw.answer_alone i f hf outcome next h
  | complete => exact h

theorem Coherent.act_advances {w : World} (hw : Coherent true w) (i : Nat) (f : Flow)
    (hf : w.flows[i]?=some f) (x : Act) (next : Flow × Services)
    (h : f.act w.services i x=some next) : Advances true i f (w.services.of i) next := by
  cases x with
  | answer outcome =>
    exact answer_advances true w.services i f outcome next (fun _ => rfl) (hw.reached i f hf)
      (hw.object_own i f hf) h
  | complete => exact complete_advances true i f _ next (hw.reached i f hf) h

/-- What an act on sign-up `j` leaves sign-up `i` with. -/
theorem advance_of (w : World) (j i : Nat) (next : Flow × Services)
    (howned : Services.OwnedBy j next.2) :
    (w.advance j next).services.of i=
      if j=i then w.services.of i++next.2 else w.services.of i := by
  change (w.services++next.2).of i=_
  rw [Services.of_append]
  by_cases hji : j=i
  · rw [if_pos hji,←hji,Services.of_self j _ howned]
  · rw [if_neg hji,Services.of_other j i hji _ howned,Services.append_empty]

/-- The acts on a sign-up have led it alone to where it is. -/
structure Replays (es : List Event) (w : World) (i : Nat) : Prop where
  started : ∀f : Flow,w.flows[i]?=some f →
    (Solo.machine i).run ⟨{captured := f.captured},{}⟩ (acts i es)=some ⟨f,w.services.of i⟩
  unstarted : w.flows.length≤ i → acts i es=[]

theorem Replays.act {es : List Event} {w : World} {i : Nat} (h : Replays es w i)
    (hw : Coherent true w) (e : Event) (f : Flow) (x : Act) (next : Flow × Services)
    (hf : w.flows[i]?=some f) (hx : f.act w.services i x=some next) (he : e.onFlow i=some x) :
    Replays (es++[e]) (w.advance i next) i := by
  have hi : i<w.flows.length := (List.getElem?_eq_some_iff.mp hf).1
  have hadvances := hw.act_advances i f hf x next hx
  have hacts : acts i (es++[e])=acts i es++[x] := by
    simp [acts,List.filterMap_append,he]
  constructor
  · intro g hg
    have hg' : (w.flows.set i next.1)[i]?=some g := hg
    have hnew : next.1=g := by simpa [hi] using hg'
    have hstep : Solo.step i ⟨f,w.services.of i⟩ x=some ⟨next.1,w.services.of i++next.2⟩ := by
      simp only [Solo.step,hw.act_alone i f hf x next hx,Option.map_some]
    rw [hacts,Machine.run_append,←hnew,hadvances.captured,h.started f hf,Option.bind_some,
      Machine.run_cons,advance_of w i i next hadvances.owned,if_pos rfl]
    change (Solo.step i ⟨f,w.services.of i⟩ x).bind _=_
    rw [hstep]
    rfl
  · intro hle
    have hlen : (w.advance i next).flows.length=w.flows.length := List.length_set ..
    omega

theorem Replays.other {es : List Event} {w v : World} {i : Nat} (h : Replays es w i) (e : Event)
    (he : e.onFlow i=none) (hs : v.services.of i=w.services.of i)
    (hlen : w.flows.length≤v.flows.length)
    (hnew : ∀f : Flow,v.flows[i]?=some f → w.flows[i]?=some f ∨
      (w.flows.length≤ i ∧ w.services.of i={} ∧ f={captured := f.captured})) :
    Replays (es++[e]) v i := by
  have hacts : acts i (es++[e])=acts i es := by
    simp [acts,List.filterMap_append,he]
  constructor
  · intro f hf
    rw [hacts,hs]
    rcases hnew f hf with hold | ⟨hle,hnone,hfresh⟩
    · exact h.started f hold
    · rw [h.unstarted hle,hnone,Machine.run_nil,←hfresh]
  · intro hle
    rw [hacts]
    exact h.unstarted (hlen.trans hle)

theorem step_replays (p : Platform) (es : List Event) (w v : World) (e : Event) (i : Nat)
    (hw : Coherent true w) (h : Replays es w i) (hstep : w.step p e=some v) :
    Replays (es++[e]) v i := by
  rcases step_acts p w v e hstep with ⟨he,hs,hflows⟩ | ⟨j,f,x,next,hf,hx,rfl,he⟩
  · have hservices : v.services.of i=w.services.of i := by rw [hs]
    rcases hflows with hsame | ⟨_,c,hmore⟩
    · apply h.other e (he i) hservices (by rw [hsame])
      intro f hf
      rw [hsame] at hf
      exact .inl hf
    · apply h.other e (he i) hservices (by rw [hmore]; simp)
      intro f hf
      rw [hmore] at hf
      by_cases hi : i<w.flows.length
      · rw [List.getElem?_append_left hi] at hf
        exact .inl hf
      · have hle : w.flows.length≤ i := by omega
        refine .inr ⟨hle,hw.unstarted i hle,?_⟩
        rw [List.getElem?_append_right hle] at hf
        have hmem := List.mem_singleton.mp (List.mem_of_getElem? hf)
        rw [hmem]
  · have hadvances := hw.act_advances j f hf x next hx
    by_cases hji : j=i
    · subst hji
      exact h.act hw e f x next hf hx (by rw [he,if_pos rfl])
    · apply h.other e (by rw [he,if_neg hji])
      · rw [advance_of w j i next hadvances.owned,if_neg hji]
      · exact (List.length_set ..).ge
      · intro g hg
        have hg' : (w.flows.set j next.1)[i]?=some g := hg
        rw [List.getElem?_set_ne hji] at hg'
        exact .inl hg'

/-- A run of the app is, for each sign-up, a run of that sign-up on its own. -/
theorem run_replays (p : Platform) (es : List Event) (w : World) (i : Nat)
    (h : (machine p).run (World.launch p) es=some w) : Replays es w i := by
  have start : Replays [] (World.launch p) i := by
    constructor
    · intro f hf
      simp [World.launch] at hf
    · intro _
      rfl
  apply (machine p).run_history (fun es w => Replays es w i) (World.launch p) start _ es w h
  intro es u e v hu hreplays hstep
  exact step_replays p es u v e i (run_coherent p es u hu) hreplays hstep

/-- Sign-ups do not interfere: how far one has come and what effects it has had depend on what it
captured and on the answers and completions of its own, and not on other sign-ups, on the forms or
on the interleaving. -/
theorem own_acts_decide (p : Platform) (es es' : List Event) (w w' : World) (i : Nat) (f f' : Flow)
    (h : (machine p).run (World.launch p) es=some w)
    (h' : (machine p).run (World.launch p) es'=some w') (hf : w.flows[i]?=some f)
    (hf' : w'.flows[i]?=some f') (hcaptured : f.captured=f'.captured)
    (hacts : acts i es=acts i es') : f=f' ∧ w.services.of i=w'.services.of i := by
  have halone := (run_replays p es w i h).started f hf
  have halone' := (run_replays p es' w' i h').started f' hf'
  rw [hcaptured,hacts,halone'] at halone
  have heq := Option.some.inj halone
  exact ⟨(congrArg Solo.flow heq).symm,(congrArg Solo.effects heq).symm⟩

/-- A sign-up whose account is made, with nobody else there. -/
def undisturbed : List Event :=
  submission 0 {pixels := [7]} "a@x.org" "secret" "Ann Lee" "Ann" "U1"++
    [.answer 0 (.success "uid1"),.complete 0]

/-- The same in between the steps of another on the same screen, which is refused. -/
def disturbed : List Event :=
  submission 0 {pixels := [7]} "a@x.org" "secret" "Ann Lee" "Ann" "U1"++
    [.editSignUp 0 .email "b@x.org",.tapSignUp 0 "U2",.answer 0 (.success "uid1"),
      .answer 1 (.failure "weak"),.complete 1,.complete 0]

theorem own_acts_decide_disturbed :
    ∃w w' f f',(machine .plain).run (World.launch .plain) undisturbed=some w ∧
      (machine .plain).run (World.launch .plain) disturbed=some w' ∧ w.flows[0]?=some f ∧
      w'.flows[0]?=some f' ∧ w'.flows.length=2 ∧ f=f' ∧ w.services.of 0=w'.services.of 0 := by
  refine ⟨_,_,_,_,rfl,rfl,rfl,rfl,rfl,?_⟩
  exact own_acts_decide .plain undisturbed disturbed _ _ 0 _ _ rfl rfl rfl rfl rfl rfl

end ShareImage.SignUps
