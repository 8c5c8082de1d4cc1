import Mathlib.Data.List.Basic
import Mathlib.Data.List.Induction

namespace Framework

/-- A guarded machine: `step s e` is `none` where the event `e` cannot happen in `s`. -/
structure Machine (State Event : Type*) where
  step : State → Event → Option State

namespace Machine

variable {State Event : Type*} (M : Machine State Event)

def run : State → List Event → Option State
  | s,[] => some s
  | s,e::es => (M.step s e).bind fun t => run t es

@[simp] theorem run_nil (s : State) : M.run s []=some s := rfl

theorem run_cons (s : State) (e : Event) (es : List Event) :
    M.run s (e::es)=(M.step s e).bind fun t => M.run t es := rfl

theorem run_append (s : State) (es fs : List Event) :
    M.run s (es++fs)=(M.run s es).bind fun t => M.run t fs := by
  induction es generalizing s with
  | nil => rfl
  | cons e es ih =>
    simp only [List.cons_append,run_cons]
    cases M.step s e with
    | none => rfl
    | some t => exact ih t

theorem run_split (s t : State) (es fs : List Event) (h : M.run s (es++fs)=some t) :
    ∃u,M.run s es=some u ∧ M.run u fs=some t := by
  rw [run_append] at h
  exact Option.bind_eq_some_iff.mp h

theorem run_cons_split (s t : State) (e : Event) (es : List Event)
    (h : M.run s (e::es)=some t) : ∃u,M.step s e=some u ∧ M.run u es=some t := by
  rw [run_cons] at h
  exact Option.bind_eq_some_iff.mp h

theorem run_singleton (s : State) (e : Event) : M.run s [e]=M.step s e := by
  rw [run_cons]
  exact Option.bind_fun_some _

/-- An invariant of the steps of one run. -/
theorem run_invariant_of_split (P : State → Prop) (s t : State) (es : List Event)
    (hstep : ∀pre e post u v,es=pre++e::post → M.run s pre=some u → P u →
      M.step u e=some v → P v)
    (hs : P s) (h : M.run s es=some t) : P t := by
  induction es generalizing s with
  | nil => exact Option.some.inj h ▸ hs
  | cons e es ih =>
    obtain ⟨u,hu,hrun⟩ := M.run_cons_split s t e es h
    have hpu : P u := hstep [] e es s u rfl rfl hs hu
    apply ih u _ hpu hrun
    intro pre f post v w hes hpre
    have hpre' : M.run s (e::pre)=some v := by
      rw [run_cons,hu]
      exact hpre
    exact hstep (e::pre) f post v w (by rw [hes]; rfl) hpre'

theorem run_invariant_of_mem (P : State → Prop) (s t : State) (es : List Event)
    (hstep : ∀s e t,e∈es → P s → M.step s e=some t → P t)
    (hs : P s) (h : M.run s es=some t) : P t := by
  apply M.run_invariant_of_split P s t es _ hs h
  intro pre e post u v hes _
  exact hstep u e v (by simp [hes])

/-- The induction every safety result of a machine goes through. -/
theorem run_invariant (P : State → Prop)
    (hstep : ∀s e t,P s → M.step s e=some t → P t)
    (s t : State) (es : List Event) (hs : P s) (h : M.run s es=some t) : P t :=
  M.run_invariant_of_mem P s t es (fun s e t _ => hstep s e t) hs h

/-- What every step does to a state in relation to the one before, a run does. -/
theorem run_relates (R : State → State → Prop) (hrefl : ∀s,R s s)
    (htrans : ∀s t u,R s t → R t u → R s u) (hstep : ∀s e t,M.step s e=some t → R s t)
    (s t : State) (es : List Event) (h : M.run s es=some t) : R s t := by
  apply M.run_invariant (R s) _ s t es (hrefl s) h
  intro u e v hu he
  exact htrans s u v hu (hstep u e v he)

/-- Every step of the run from `s` meets the condition `C` on the state before it. -/
def Meets (C : State → Event → Prop) : State → List Event → Prop
  | _,[] => True
  | s,e::es => C s e ∧
    match M.step s e with
    | none => True
    | some t => Meets C t es

instance decidableMeets (C : State → Event → Prop) [∀s e,Decidable (C s e)] :
    (s : State) → (es : List Event) → Decidable (M.Meets C s es)
  | _,[] => isTrue trivial
  | s,e::es =>
    have _tail : Decidable (match M.step s e with
        | none => True
        | some t => M.Meets C t es) :=
      match M.step s e with
      | none => isTrue trivial
      | some t => decidableMeets C t es
    inferInstanceAs (Decidable (C s e ∧ _))

theorem meets_iff (C : State → Event → Prop) (s : State) (es : List Event) :
    M.Meets C s es ↔ ∀pre e post u,es=pre++e::post → M.run s pre=some u → C u e := by
  induction es generalizing s with
  | nil =>
    constructor
    · intro _ pre e post u hes
      simp at hes
    · intro _
      trivial
  | cons f es ih =>
    constructor
    · rintro ⟨hf,htail⟩ pre e post u hes hrun
      cases pre with
      | nil =>
        obtain ⟨rfl,rfl⟩ := List.cons.inj hes
        have hsu : s=u := Option.some.inj hrun
        exact hsu ▸ hf
      | cons g pre =>
        obtain ⟨rfl,hes'⟩ := List.cons.inj hes
        obtain ⟨t,ht,hpre⟩ := M.run_cons_split s u f pre hrun
        rw [ht] at htail
        exact (ih t).mp htail pre e post u hes' hpre
    · intro h
      refine ⟨h [] f es s rfl rfl,?_⟩
      cases hstep : M.step s f with
      | none => trivial
      | some t =>
        apply (ih t).mpr
        intro pre e post u hes hrun
        have hrun' : M.run s (f::pre)=some u := by
          rw [run_cons,hstep]
          exact hrun
        exact h (f::pre) e post u (by rw [hes]; rfl) hrun'

theorem meets_append (C : State → Event → Prop) (s t : State) (es fs : List Event)
    (hes : M.Meets C s es) (h : M.run s es=some t) (hfs : M.Meets C t fs) :
    M.Meets C s (es++fs) := by
  induction es generalizing s with
  | nil =>
    have hst : s=t := Option.some.inj h
    exact hst ▸ hfs
  | cons e es ih =>
    obtain ⟨u,hu,hrun⟩ := M.run_cons_split s t e es h
    obtain ⟨he,htail⟩ := hes
    rw [hu] at htail
    refine ⟨he,?_⟩
    rw [hu]
    exact ih u htail hrun

theorem run_invariant_of_meets (C : State → Event → Prop) (P : State → Prop)
    (hstep : ∀s e t,P s → C s e → M.step s e=some t → P t)
    (s t : State) (es : List Event) (hs : P s) (hc : M.Meets C s es)
    (h : M.run s es=some t) : P t := by
  apply M.run_invariant_of_split P s t es _ hs h
  intro pre e post u v hes hu hp
  have hce : C u e := (M.meets_iff C s es).mp hc pre e post u hes hu
  exact hstep u e v hp hce

theorem meets_concat (C : State → Event → Prop) (s t : State) (es : List Event) (e : Event)
    (h : M.run s es=some t) (hc : M.Meets C s (es++[e])) : M.Meets C s es ∧ C t e := by
  rw [meets_iff] at hc ⊢
  constructor
  · intro pre f post u hes hu
    have hsplit : es++[e]=pre++f::(post++[e]) := by simp [hes]
    exact hc pre f (post++[e]) u hsplit hu
  · exact hc es e [] t rfl h

/-- When a step keeps `P` exactly under the condition `C`, and `I` is an invariant that may be used
to see this, a run keeps `P` throughout exactly when all its steps meet `C`. -/
theorem meets_iff_throughout (C : State → Event → Prop) (I P : State → Prop)
    (hI : ∀s e t,I s → M.step s e=some t → I t)
    (hP : ∀s e t,I s → P s → M.step s e=some t → (P t ↔ C s e))
    (s t : State) (es : List Event) (hs : I s) (hp : P s) (h : M.run s es=some t) :
    (∀pre post u,es=pre++post → M.run s pre=some u → P u) ↔ M.Meets C s es := by
  induction es generalizing s with
  | nil =>
    refine ⟨fun _ => trivial,?_⟩
    intro _ pre post u hes hrun
    obtain ⟨rfl,rfl⟩ := List.append_eq_nil_iff.mp hes.symm
    exact Option.some.inj hrun ▸ hp
  | cons e es ih =>
    obtain ⟨v,hv,hrun⟩ := M.run_cons_split s t e es h
    have hstep : P v ↔ C s e := hP s e v hs hp hv
    have tail := fun hpv => ih v (hI s e v hs hv) hpv hrun
    constructor
    · intro hall
      have hpv : P v := hall [e] es v rfl (by rw [run_cons,hv]; rfl)
      refine ⟨hstep.mp hpv,?_⟩
      rw [hv]
      apply (tail hpv).mp
      intro pre post u hes hpre
      exact hall (e::pre) post u (by rw [hes]; rfl) (by rw [run_cons,hv]; exact hpre)
    · rintro ⟨hce,hmeets⟩ pre post u hes hpre
      rw [hv] at hmeets
      cases pre with
      | nil => exact Option.some.inj hpre ▸ hp
      | cons f pre =>
        obtain ⟨rfl,hes'⟩ := List.cons.inj hes
        obtain ⟨w,hw,hrest⟩ := M.run_cons_split s u e pre hpre
        have hvw : v=w := Option.some.inj (hv.symm.trans hw)
        exact (tail (hstep.mpr hce)).mpr hmeets pre post u hes' (hvw ▸ hrest)

/-- An invariant that also reads the events so far. -/
theorem run_history (P : List Event → State → Prop) (s : State) (hs : P [] s)
    (hstep : ∀es u e t,M.run s es=some u → P es u → M.step u e=some t → P (es++[e]) t)
    (es : List Event) (t : State) (h : M.run s es=some t) : P es t := by
  induction es using List.reverseRecOn generalizing t with
  | nil => exact Option.some.inj h ▸ hs
  | append_singleton es e ih =>
    obtain ⟨u,hu,hrun⟩ := M.run_split s t es [e] h
    obtain ⟨v,hv,hnil⟩ := M.run_cons_split u t e [] hrun
    have hvt : v=t := Option.some.inj hnil
    exact hstep es u e t hu (ih u hu) (hvt ▸ hv)

/-- What the steps of a run put out, in order, when a step from `s` at `e` puts out `out s e`. -/
def log {Output : Type*} (out : State → Event → List Output) : State → List Event → List Output
  | _,[] => []
  | s,e::es => out s e++
    match M.step s e with
    | none => []
    | some t => log out t es

theorem log_concat {Output : Type*} (out : State → Event → List Output) (s t : State)
    (es : List Event) (e : Event) (h : M.run s es=some t) :
    M.log out s (es++[e])=M.log out s es++out t e := by
  induction es generalizing s with
  | nil =>
    have hst : s=t := Option.some.inj h
    subst hst
    simp only [List.nil_append,log]
    cases M.step s e <;> simp
  | cons f es ih =>
    obtain ⟨u,hu,hrun⟩ := M.run_cons_split s t f es h
    simp only [List.cons_append,log,hu,ih u hrun,List.append_assoc]

theorem log_forall {Output : Type*} (out : State → Event → List Output) (Q : Output → Prop)
    (s : State) (es : List Event) (hout : ∀s e,e∈es → ∀x∈out s e,Q x) :
    ∀x∈M.log out s es,Q x := by
  induction es generalizing s with
  | nil =>
    intro x hx
    contradiction
  | cons e es ih =>
    intro x hx
    rcases List.mem_append.mp hx with hx | hx
    · exact hout s e List.mem_cons_self x hx
    · cases hstep : M.step s e with
      | none =>
        rw [hstep] at hx
        contradiction
      | some t =>
        rw [hstep] at hx
        exact ih t (fun s f hf => hout s f (List.mem_cons_of_mem e hf)) x hx

/-- What a run has put out goes back to one of its steps. -/
theorem mem_log {Output : Type*} (out : State → Event → List Output) (s t : State)
    (es : List Event) (h : M.run s es=some t) (x : Output) (hx : x∈M.log out s es) :
    ∃pre e post u v,es=pre++e::post ∧ M.run s pre=some u ∧ M.step u e=some v ∧
      M.run v post=some t ∧ x∈out u e := by
  induction es generalizing s with
  | nil => contradiction
  | cons e es ih =>
    obtain ⟨u,hu,hrun⟩ := M.run_cons_split s t e es h
    rw [log,hu] at hx
    rcases List.mem_append.mp hx with hhead | htail
    · exact ⟨[],e,es,s,u,rfl,rfl,hu,hrun,hhead⟩
    · obtain ⟨pre,f,post,v,w,hes,hpre,hstep,hpost,hout⟩ := ih u hrun htail
      refine ⟨e::pre,f,post,v,w,by rw [hes]; rfl,?_,hstep,hpost,hout⟩
      rw [run_cons,hu]
      exact hpre

/-- When each step of the one machine is a run of the other, with the events it puts out, its runs
are runs of the other. -/
theorem run_simulates {State' Event' : Type*} (N : Machine State' Event') (f : State → State')
    (out : State → Event → List Event')
    (hstep : ∀s e t,M.step s e=some t → N.run (f s) (out s e)=some (f t))
    (s t : State) (es : List Event) (h : M.run s es=some t) :
    N.run (f s) (M.log out s es)=some (f t) := by
  induction es generalizing s with
  | nil => exact congrArg (Option.map f) h
  | cons e es ih =>
    obtain ⟨u,hu,hrun⟩ := M.run_cons_split s t e es h
    have hlog : M.log out s (e::es)=out s e++M.log out u es := by
      rw [log,hu]
    rw [hlog,N.run_append,hstep s e u hu]
    exact ih u hrun

/-- When each step of the one machine puts out a run of the other that meets the condition, so does
what a run puts out. -/
theorem log_meets {State' Event' : Type*} (N : Machine State' Event') (f : State → State')
    (out : State → Event → List Event') (C : State' → Event' → Prop) (s t : State)
    (es : List Event) (h : M.run s es=some t)
    (hstep : ∀s e t,M.step s e=some t → N.run (f s) (out s e)=some (f t))
    (hmeets : ∀pre e post u v,es=pre++e::post → M.run s pre=some u → M.step u e=some v →
      N.Meets C (f u) (out u e)) : N.Meets C (f s) (M.log out s es) := by
  induction es generalizing s with
  | nil => trivial
  | cons e es ih =>
    obtain ⟨u,hu,hrun⟩ := M.run_cons_split s t e es h
    have hlog : M.log out s (e::es)=out s e++M.log out u es := by
      rw [log,hu]
    have hhead : N.Meets C (f s) (out s e) := hmeets [] e es s u rfl rfl hu
    have htail : N.Meets C (f u) (M.log out u es) := by
      apply ih u hrun
      intro pre x post v w hes hpre
      have hpre' : M.run s (e::pre)=some v := by
        rw [run_cons,hu]
        exact hpre
      exact hmeets (e::pre) x post v w (by rw [hes]; rfl) hpre'
    rw [hlog]
    exact N.meets_append C (f s) (f u) _ _ hhead (hstep s e u hu) htail

/-- The machine that keeps what its steps have put out beside its state. -/
def logging {Output : Type*} (out : State → Event → List Output) :
    Machine (State × List Output) Event where
  step x e := (M.step x.1 e).map fun t => (t,x.2++out x.1 e)

theorem logging_run {Output : Type*} (out : State → Event → List Output) (s : State)
    (l : List Output) (es : List Event) :
    (M.logging out).run (s,l) es=(M.run s es).map fun t => (t,l++M.log out s es) := by
  induction es generalizing s l with
  | nil => simp [log]
  | cons e es ih =>
    rw [run_cons,run_cons]
    cases hstep : M.step s e with
    | none => simp [logging,hstep]
    | some t =>
      have hnext : (M.logging out).step (s,l) e=some (t,l++out s e) := by
        simp [logging,hstep]
      rw [hnext,Option.bind_some,Option.bind_some,ih]
      simp only [log,hstep,List.append_assoc]

/-- What holds at the end of a run and not at its start came about at one of its steps. -/
theorem run_first (Q : State → Prop) (s t : State) (es : List Event)
    (hs : ¬Q s) (h : M.run s es=some t) (ht : Q t) :
    ∃pre e post u v,es=pre++e::post ∧ M.run s pre=some u ∧ M.step u e=some v ∧
      M.run v post=some t ∧ ¬Q u ∧ Q v := by
  induction es generalizing s with
  | nil => exact absurd (Option.some.inj h ▸ ht) hs
  | cons e es ih =>
    obtain ⟨u,hu,hrun⟩ := M.run_cons_split s t e es h
    by_cases hq : Q u
    · exact ⟨[],e,es,s,u,rfl,rfl,hu,hrun,hs,hq⟩
    · obtain ⟨pre,f,post,v,w,hes,hpre,hstep,hpost,hv,hw⟩ := ih u hq hrun
      refine ⟨e::pre,f,post,v,w,by rw [hes]; rfl,?_,hstep,hpost,hv,hw⟩
      rw [run_cons,hu]
      exact hpre

/-- One of the events has happened after events and in a state that meet the condition with it. -/
def Happened (C : List Event → State → Event → Prop) (s : State) (es : List Event) : Prop :=
  ∃pre e post u,es=pre++e::post ∧ M.run s pre=some u ∧ C pre u e

theorem Happened.concat {M : Machine State Event} {C : List Event → State → Event → Prop}
    {s : State} {es : List Event} (h : M.Happened C s es) (e : Event) :
    M.Happened C s (es++[e]) := by
  obtain ⟨pre,f,post,u,rfl,hu⟩ := h
  exact ⟨pre,f,post++[e],u,by simp,hu⟩

/-- What is found in states of a run, not at its start, and comes in only by events that meet the
condition, goes back to such an event. -/
theorem run_happened {Item : Type*} (Q : State → Item → Prop)
    (C : Item → List Event → State → Event → Prop) (s : State) (hs : ∀x,¬Q s x)
    (hstep : ∀es u e v,M.run s es=some u → M.step u e=some v → ∀x,Q v x → Q u x ∨ C x es u e)
    (es : List Event) (t : State) (h : M.run s es=some t) (x : Item) (hx : Q t x) :
    M.Happened (C x) s es := by
  apply M.run_history (fun es t => ∀x,Q t x → M.Happened (C x) s es) s _ _ es t h x hx
  · intro x hx
    exact absurd hx (hs x)
  · intro es u e v hu hitems he x hx
    rcases hstep es u e v hu he x hx with hold | hnew
    · exact (hitems x hold).concat e
    · exact ⟨es,e,[],u,rfl,hu,hnew⟩

/-- Machines that keep their states related at each step keep them so along the runs. -/
theorem run_lockstep {State' : Type*} (N : Machine State' Event) (R : State → State' → Prop)
    (hstep : ∀s s' e,R s s' → Option.Rel R (M.step s e) (N.step s' e)) (s : State) (s' : State')
    (es : List Event) (h : R s s') : Option.Rel R (M.run s es) (N.run s' es) := by
  induction es generalizing s s' with
  | nil => exact .some h
  | cons e es ih =>
    have hnext := hstep s s' e h
    rw [run_cons,run_cons]
    generalize M.step s e=t at hnext ⊢
    generalize N.step s' e=t' at hnext ⊢
    cases hnext with
    | none => exact .none
    | some hnext => exact ih _ _ hnext

/-- A map of states and events that commutes with the steps commutes with the runs. -/
theorem run_map (f : State → State) (g : Event → Event)
    (hstep : ∀s e,M.step (f s) (g e)=(M.step s e).map f) (s : State) (es : List Event) :
    M.run (f s) (es.map g)=(M.run s es).map f := by
  induction es generalizing s with
  | nil => rfl
  | cons e es ih =>
    simp only [List.map_cons,run_cons,hstep]
    cases M.step s e with
    | none => rfl
    | some t => exact ih t

end Machine

end Framework
