import ShareImage.SignUp.World

namespace ShareImage.SignUps

/-- What an event does to screen `n`. -/
def Event.onSignUp (n : Nat) (e : Event) (vc : SignUpViewController) : SignUpViewController :=
  match e with
  | .editSignUp m f t => if m=n then vc.editingChanged f t else vc
  | .validateSignUp m => if m=n then vc.formValidation else vc
  | .pickPhoto m image => if m=n then vc.didFinishPickingMedia image else vc
  | _ => vc

/-- A request takes effect and is reported as failed. -/
def Event.loses : Event → Bool
  | .answer _ outcome => outcome.isLost
  | _ => false

/-- The UUID that `handleSignUp` generates. -/
def Event.generates : Event → Option String
  | .tapSignUp _ uuid => some uuid
  | _ => none

theorem update_signUp (w : World) (m n : Nat) (f : SignUpViewController → SignUpViewController) :
    (w.updateSignUp m f).signUp n=if m=n then f (w.signUp n) else w.signUp n := by
  unfold World.updateSignUp
  by_cases h : m=n
  · subst h
    simp
  · simp [h,Function.update_of_ne (Ne.symm h)]

/-- The event touches the screens and the sign-ins only. -/
structure Quiet (w v : World) (e : Event) : Prop where
  generates : e.generates=none
  flows : v.flows=w.flows
  services : v.services=w.services
  uuids : v.uuids=w.uuids
  signUp : ∀n,v.signUp n=e.onSignUp n (w.signUp n)

/-- What one event does to the sign-ups: nothing, a new one, or a step of one of them. -/
theorem step_cases (p : Platform) (w v : World) (e : Event) (h : w.step p e=some v) :
    Quiet w v e ∨
    (∃n uuid,e=.tapSignUp n uuid ∧ (w.signUp n).signUpButton.isEnabled=true ∧
      uuid∉w.uuids ∧ v=w.tapSignUp p n uuid) ∨
    (∃i f next,w.flows[i]?=some f ∧ v=w.advance i next ∧
      ((∃outcome,e=.answer i outcome ∧ f.answer w.services i outcome=some next) ∨
        (e=.complete i ∧ f.complete i=some next))) := by
  cases e with
  | editSignUp m f t =>
    cases h
    exact .inl ⟨rfl,rfl,rfl,rfl,fun n => update_signUp ..⟩
  | validateSignUp m =>
    cases h
    exact .inl ⟨rfl,rfl,rfl,rfl,fun n => update_signUp ..⟩
  | pickPhoto m image =>
    cases h
    exact .inl ⟨rfl,rfl,rfl,rfl,fun n => update_signUp ..⟩
  | tapSignUp n uuid =>
    simp only [World.step] at h
    split at h
    · rename_i hguard
      obtain ⟨hen,hnew⟩ : (w.signUp n).signUpButton.isEnabled=true ∧ uuid∉w.uuids := by
        simpa using hguard
      exact .inr (.inl ⟨n,uuid,rfl,hen,hnew,(Option.some.inj h).symm⟩)
    · contradiction
  | answer i outcome =>
    simp only [World.step,Option.bind_eq_bind,Option.bind_eq_some_iff] at h
    obtain ⟨f,hf,next,hnext,hv⟩ := h
    exact .inr (.inr ⟨i,f,next,hf,(Option.some.inj hv).symm,.inl ⟨outcome,rfl,hnext⟩⟩)
  | complete i =>
    simp only [World.step,Option.bind_eq_bind,Option.bind_eq_some_iff] at h
    obtain ⟨f,hf,next,hnext,hv⟩ := h
    exact .inr (.inr ⟨i,f,next,hf,(Option.some.inj hv).symm,.inr ⟨rfl,hnext⟩⟩)
  | editLogin m f t =>
    cases h
    exact .inl ⟨rfl,rfl,rfl,rfl,fun n => rfl⟩
  | validateLogin m =>
    cases h
    exact .inl ⟨rfl,rfl,rfl,rfl,fun n => rfl⟩
  | tapSignIn m =>
    simp only [World.step] at h
    split at h
    · obtain ⟨credentials,_,hv⟩ := Option.map_eq_some_iff.mp h
      cases hv
      exact .inl ⟨rfl,rfl,rfl,rfl,fun n => rfl⟩
    · contradiction
  | completeSignIn k error =>
    simp only [World.step,Option.bind_eq_bind,Option.bind_eq_some_iff] at h
    obtain ⟨request,_,hv⟩ := h
    split at hv
    · contradiction
    · cases hv
      exact .inl ⟨rfl,rfl,rfl,rfl,fun n => rfl⟩

/-- Only the events of a screen change it. -/
theorem step_signUp (p : Platform) (w v : World) (e : Event) (h : w.step p e=some v) (n : Nat) :
    v.signUp n=e.onSignUp n (w.signUp n) := by
  rcases step_cases p w v e h with hq | ⟨m,uuid,rfl,_,_,rfl⟩ | ⟨i,f,next,_,rfl,hs⟩
  · exact hq.signUp n
  · rfl
  · rcases hs with ⟨outcome,rfl,_⟩ | ⟨rfl,_⟩ <;> rfl

end ShareImage.SignUps
