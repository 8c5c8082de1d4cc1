import ShareImage.SignUp.Form

namespace ShareImage

namespace SignUpViewController

/-- The button is enabled exactly when the form is complete. -/
def Validated (vc : SignUpViewController) : Prop :=
  vc.signUpButton.isEnabled=true ↔ vc.Filled ∧ vc.imageSelected=true

theorem new_validated (p : Platform) : (new p).Validated := by
  have hempty : ¬(new p).Filled := by
    intro h
    have hemail := h .email
    contradiction
  constructor
  · intro h
    contradiction
  · intro h
    exact absurd h.1 hempty

theorem formValidation_validated (vc : SignUpViewController) : vc.formValidation.Validated := by
  obtain ⟨_,himage,hfields⟩ := vc.formValidation_rest
  have hfilled : vc.formValidation.Filled ↔ vc.Filled := filled_congr _ _ hfields
  have henabled := vc.formValidation_enabled
  rw [←hfilled,←himage] at henabled
  exact henabled

theorem editingChanged_validated (vc : SignUpViewController) (f : Field) (text : String) :
    (vc.editingChanged f text).Validated := formValidation_validated _

theorem didFinishPickingMedia_validated_iff (vc : SignUpViewController) (h : vc.Validated)
    (image : Option UIImage) :
    (vc.didFinishPickingMedia image).Validated ↔ (vc.Filled → vc.imageSelected=image.isSome) := by
  obtain ⟨hbutton,himage,hfilled⟩ := vc.didFinishPickingMedia_rest image
  have hafter : (vc.didFinishPickingMedia image).Validated ↔
      (vc.Filled ∧ vc.imageSelected=true ↔ vc.Filled ∧ image.isSome=true) := by
    unfold Validated at h ⊢
    rw [hbutton,himage,hfilled,h]
  have hbool : vc.imageSelected=image.isSome ↔ (vc.imageSelected=true ↔ image.isSome=true) :=
    Bool.eq_iff_iff
  rw [hafter,hbool]
  exact and_congr_right_iff

end SignUpViewController

namespace SignUps

open Framework

/-- The screen, and whether it presents the photo picker. -/
structure Screen where
  controller : SignUpViewController
  imagePicker : Bool := false
  deriving DecidableEq

namespace Screen

inductive Event where
  | editingChanged (field : SignUpViewController.Field) (text : String)
  | formValidation
  | handleSelectProfilePhoto
  | didFinishPickingMedia (editedImage : Option UIImage)
  deriving DecidableEq

def new (p : Platform) : Screen where
  controller := SignUpViewController.new p

/-- Opening the picker leaves the form alone; a pick without an edited image leaves the picker
open. -/
def handle (s : Screen) : Event → Screen
  | .editingChanged field text => {s with controller := s.controller.editingChanged field text}
  | .formValidation => {s with controller := s.controller.formValidation}
  | .handleSelectProfilePhoto => {s with imagePicker := true}
  | .didFinishPickingMedia editedImage =>
    {controller := s.controller.didFinishPickingMedia editedImage
     imagePicker := s.imagePicker && editedImage.isNone}

def machine : Machine Screen Event := ⟨fun s e => some (s.handle e)⟩

/-- A pick changes `imageSelected` only while some field is empty. -/
def picksEarly (s : Screen) : Event → Prop
  | .didFinishPickingMedia editedImage =>
    s.controller.Filled → s.controller.imageSelected=editedImage.isSome
  | _ => True

instance (s : Screen) (e : Event) : Decidable (s.picksEarly e) := by
  unfold picksEarly
  split <;> infer_instance

theorem handle_validated_iff (s : Screen) (e : Event) (h : s.controller.Validated) :
    (s.handle e).controller.Validated ↔ s.picksEarly e := by
  cases e with
  | editingChanged field text =>
    have hvalid := s.controller.editingChanged_validated field text
    exact ⟨fun _ => trivial,fun _ => hvalid⟩
  | formValidation =>
    have hvalid := s.controller.formValidation_validated
    exact ⟨fun _ => trivial,fun _ => hvalid⟩
  | handleSelectProfilePhoto => exact ⟨fun _ => trivial,fun _ => h⟩
  | didFinishPickingMedia editedImage =>
    exact s.controller.didFinishPickingMedia_validated_iff h editedImage

theorem run_total (s : Screen) (es : List Event) : ∃t,machine.run s es=some t := by
  induction es generalizing s with
  | nil => exact ⟨s,rfl⟩
  | cons e es ih =>
    obtain ⟨t,ht⟩ := ih (s.handle e)
    refine ⟨t,?_⟩
    rw [Machine.run_cons]
    exact ht

/-- The sign-up button is enabled exactly when the form is complete, in every state of the run,
exactly when every pick that changes `imageSelected` comes before the last field is filled. -/
theorem validated_throughout_iff (p : Platform) (es : List Event) :
    (∀pre post s,es=pre++post → machine.run (new p) pre=some s → s.controller.Validated) ↔
      machine.Meets picksEarly (new p) es := by
  obtain ⟨t,ht⟩ := run_total (new p) es
  apply machine.meets_iff_throughout picksEarly (fun _ => True)
    (fun s => s.controller.Validated) (fun _ _ _ _ _ => trivial) _ (new p) t es trivial
    (SignUpViewController.new_validated p) ht
  intro s e v _ hs hstep
  have hv : s.handle e=v := Option.some.inj hstep
  rw [←hv]
  exact s.handle_validated_iff e hs

/-- The four fields are filled in and then a photo is picked: the button stays disabled. -/
def photoLast (image : UIImage) : List Event :=
  [.editingChanged .email "ann@example.org",.editingChanged .password "secret",
    .editingChanged .fullName "Ann",.editingChanged .username "ann",.handleSelectProfilePhoto,
    .didFinishPickingMedia (some image)]

theorem not_validated_throughout : ¬∀(p : Platform) (es pre post : List Event) (s : Screen),
    es=pre++post → machine.run (new p) pre=some s → s.controller.Validated := by
  intro h
  have hlast := h .plain (photoLast {pixels := [1]}) (photoLast {pixels := [1]}) [] _ (by simp) rfl
  have henabled := hlast.mpr (by decide)
  exact absurd henabled (by decide)

end Screen

/-- What an event of the app is to screen `n`. -/
def Event.onScreen (n : Nat) : Event → Option Screen.Event
  | .editSignUp m field text => if m=n then some (.editingChanged field text) else none
  | .validateSignUp m => if m=n then some .formValidation else none
  | .pickPhoto m image => if m=n then some (.didFinishPickingMedia image) else none
  | _ => none

theorem onSignUp_eq (n : Nat) (e : Event) (s : Screen) :
    e.onSignUp n s.controller=((e.onScreen n).elim s s.handle).controller := by
  cases e with
  | editSignUp m field text =>
    by_cases h : m=n
    · simp [Event.onSignUp,Event.onScreen,Screen.handle,h]
    · simp [Event.onSignUp,Event.onScreen,h]
  | validateSignUp m =>
    by_cases h : m=n
    · simp [Event.onSignUp,Event.onScreen,Screen.handle,h]
    · simp [Event.onSignUp,Event.onScreen,h]
  | pickPhoto m image =>
    by_cases h : m=n
    · simp [Event.onSignUp,Event.onScreen,Screen.handle,h]
    · simp [Event.onSignUp,Event.onScreen,h]
  | tapSignUp | answer | complete | editLogin | validateLogin | tapSignIn | completeSignIn => rfl

/-- Every sign-up screen of the app runs as a screen on its own, whatever happens elsewhere. -/
theorem run_screen (p : Platform) (es : List Event) (w : World)
    (h : (machine p).run (World.launch p) es=some w) (n : Nat) :
    ∃s,Screen.machine.run (Screen.new p) (es.filterMap (Event.onScreen n))=some s ∧
      s.controller=w.signUp n := by
  refine (machine p).run_history (fun es w => ∃s,Screen.machine.run (Screen.new p)
    (es.filterMap (Event.onScreen n))=some s ∧ s.controller=w.signUp n) (World.launch p)
    ⟨Screen.new p,rfl,rfl⟩ ?_ es w h
  rintro es u e v _ ⟨s,hs,hcontroller⟩ hstep
  have hv : v.signUp n=((e.onScreen n).elim s s.handle).controller := by
    rw [step_signUp p u v e hstep n,←hcontroller,onSignUp_eq]
  rw [List.filterMap_append,Machine.run_append,hs,Option.bind_some,hv]
  cases he : e.onScreen n with
  | none => exact ⟨s,by simp [he],rfl⟩
  | some f => exact ⟨s.handle f,by simp [he,Machine.run_cons,Screen.machine],rfl⟩

/-- A screen of the app whose picks come early has its button enabled exactly when its form is
complete. -/
theorem run_validated (p : Platform) (es : List Event) (w : World)
    (h : (machine p).run (World.launch p) es=some w) (n : Nat)
    (hc : Screen.machine.Meets Screen.picksEarly (Screen.new p)
      (es.filterMap (Event.onScreen n))) : (w.signUp n).Validated := by
  obtain ⟨s,hs,hcontroller⟩ := run_screen p es w h n
  rw [←hcontroller]
  apply Screen.machine.run_invariant_of_meets Screen.picksEarly (fun s => s.controller.Validated)
    _ (Screen.new p) s _ (SignUpViewController.new_validated p) hc hs
  intro t e v ht he hstep
  have hv : t.handle e=v := Option.some.inj hstep
  rw [←hv]
  exact (t.handle_validated_iff e ht).mpr he

end SignUps

end ShareImage
