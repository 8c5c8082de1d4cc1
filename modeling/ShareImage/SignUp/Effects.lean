import ShareImage.SignUp.Invariant

namespace ShareImage.SignUps

open Framework

/-- The three remote effects that one sign-up is after. -/
inductive Effect where
  | account
  | image
  | record
  deriving DecidableEq

/-- How many of the four steps have to succeed for the effect. -/
def Effect.after : Effect → Nat
  | .account => 1
  | .image => 2
  | .record => 4

/-- How many of its four steps have succeeded so far. A URL that is nil is no success. -/
def Flow.succeeded (f : Flow) : Nat :=
  match f.stage with
  | .createUser (some ⟨some _,none⟩) => 1
  | .createUser _ => 0
  | .putData _ (some ⟨some _,none⟩) => 2
  | .putData _ _ => 1
  | .downloadURL _ (some ⟨some _,_⟩) => 3
  | .downloadURL _ _ => 2
  | .updateChildValues _ _ (some ⟨some _,none⟩) => 4
  | .updateChildValues _ _ _ => 3

/-- Sign-up `i` has had the effect: its account for the email, its object at the path of
`storageRef`, its child of `users` under the uid of its account. -/
def World.Has (w : World) (i : Nat) (c : SignUp) : Effect → Prop
  | .account => ∃a∈w.services.auth,a.flow=i ∧ a.email=c.email
  | .image => ∃o∈w.services.storage,o.flow=i ∧ o.path=c.storageRef
  | .record => ∃r∈w.services.database,r.flow=i ∧
      ∃a∈w.services.auth,a.flow=i ∧ a.uid=r.uid

instance (w : World) (i : Nat) (c : SignUp) (e : Effect) : Decidable (w.Has i c e) := by
  cases e <;> unfold World.Has <;> infer_instance

def World.AllOrNothing (w : World) (i : Nat) (c : SignUp) : Prop :=
  (∀e,w.Has i c e) ∨ ∀e,¬w.Has i c e

theorem has_account (w : World) (i : Nat) (c : SignUp) :
    w.Has i c .account ↔ ∃a∈(w.services.of i).auth,a.email=c.email := by
  simp only [World.Has,Services.of,mem_own,and_assoc]

theorem has_image (w : World) (i : Nat) (c : SignUp) :
    w.Has i c .image ↔ ∃o∈(w.services.of i).storage,o.path=c.storageRef := by
  simp only [World.Has,Services.of,mem_own,and_assoc]

theorem has_record (w : World) (i : Nat) (c : SignUp) :
    w.Has i c .record ↔ ∃r∈(w.services.of i).database,∃a∈(w.services.of i).auth,a.uid=r.uid := by
  simp only [World.Has,Services.of,mem_own,and_assoc]

/-- An effect is there exactly when the steps up to its own have succeeded. -/
theorem Coherent.has_iff {w : World} (hw : Coherent false w) (i : Nat) (f : Flow)
    (hf : w.flows[i]?=some f) (e : Effect) :
    w.Has i f.captured e ↔ e.after≤f.succeeded := by
  have hr := hw.reached i f hf
  obtain ⟨c,stage,finished⟩ := f
  cases e
  case' account => rw [has_account]
  case' image => rw [has_image]
  case' record => rw [has_record]
  all_goals
    simp only [Flow.Reached] at hr
    generalize w.services.of i=made at hr
    cases hr
    case' createdUnseen h | storedUnseen h | savedUnseen h => contradiction
    all_goals simp [Effect.after,Flow.succeeded,SignUp.account,SignUp.stored,SignUp.record]

/-- Where no step that failed has had an effect, the effects of a sign-up are those of its steps
that succeeded, so an initial segment of account, image, record. Nothing is taken back: with no step
outstanding there are all three exactly if all four steps succeeded, and none exactly if
`createUser` failed. -/
theorem effects_of_succeeded_steps (p : Platform) (es : List Event) (w : World) (i : Nat)
    (f : Flow) (h : (machine p).run (World.launch p) es=some w) (hes : ∀e∈es,e.loses=false)
    (hf : w.flows[i]?=some f) :
    (∀e,w.Has i f.captured e ↔ e.after≤f.succeeded) ∧
    (f.finished=true → ((∀e,w.Has i f.captured e) ↔ f.succeeded=4) ∧
      ((∀e,¬w.Has i f.captured e) ↔ f.succeeded=0)) := by
  have hw := run_coherent_of_none_lost p es w h hes
  have key := hw.has_iff i f hf
  refine ⟨key,fun _ => ⟨?_,?_⟩⟩
  · have hle : f.succeeded≤4 := by
      unfold Flow.succeeded
      split <;> omega
    constructor
    · intro hall
      have h4 := (key .record).mp (hall .record)
      simp only [Effect.after] at h4
      omega
    · intro h4 e
      rw [key,h4]
      cases e <;> decide
  · constructor
    · intro hnone
      have h1 : ¬1≤f.succeeded := fun ha => hnone .account ((key .account).mpr ha)
      omega
    · intro h0 e
      rw [key,h0]
      cases e <;> decide

/-- A run in which the upload fails: the account stays, with no image and no record. -/
def uploadFails : List Event :=
  submission 0 {pixels := [7]} "a@x.org" "secret" "Ann Lee" "Ann" "U1"++
    [.answer 0 (.success "uid1"),.complete 0,.answer 0 (.failure "quota"),.complete 0]

theorem effects_of_succeeded_steps_uploadFails :
    ∃w f,(machine .plain).run (World.launch .plain) uploadFails=some w ∧
      w.flows[0]?=some f ∧ (∀e,w.Has 0 f.captured e ↔ e.after≤f.succeeded) := by
  refine ⟨_,_,rfl,rfl,?_⟩
  exact (effects_of_succeeded_steps .plain uploadFails _ 0 _ rfl (by decide) rfl).1

theorem not_allOrNothing :
    ¬∀(es : List Event) (w : World) (i : Nat) (f : Flow),
      (machine .plain).run (World.launch .plain) es=some w → (∀e∈es,e.loses=false) →
      w.flows[i]?=some f → f.finished=true → w.AllOrNothing i f.captured := by
  intro h
  rcases h uploadFails _ 0 _ rfl (by decide) rfl rfl with hall | hnone
  · exact absurd (hall .image) (by decide)
  · exact hnone .account (by decide)

end ShareImage.SignUps
