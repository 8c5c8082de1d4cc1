import ShareImage.SignUp.Step

namespace ShareImage

theorem UITextField.hasText_iff (field : UITextField) :
    field.hasText=true ↔ ∃text,field.text=some text ∧ text≠"" := by
  unfold UITextField.hasText
  cases field.text <;> simp

namespace SignUpViewController

/-- All four fields have text. -/
def Filled (vc : SignUpViewController) : Prop := ∀f,(vc.field f).hasText=true

/-- What the photo button shows when `picked` was the last photo picked. -/
def photo (p : Platform) : Option UIImage → Option UIImage
  | some image => some (image.withRenderingMode .alwaysOriginal)
  | none => (new p).plusPhotoButton

/-- The form after events in which `picked` was the last photo picked with an edited image. -/
structure Fits (p : Platform) (picked : Option UIImage) (vc : SignUpViewController) : Prop where
  photo : vc.plusPhotoButton=photo p picked
  selected : vc.imageSelected=true → picked≠none
  enabled : vc.signUpButton.isEnabled=true → vc.Filled ∧ picked≠none

theorem new_fits (p : Platform) : Fits p none (new p) :=
  ⟨rfl,by simp [new],by simp [new]⟩

theorem filled_iff (vc : SignUpViewController) :
    vc.Filled ↔ vc.emailTextField.hasText=true ∧ vc.passwordTextField.hasText=true ∧
      vc.fullNameTextField.hasText=true ∧ vc.usernameTextField.hasText=true := by
  constructor
  · intro h
    exact ⟨h .email,h .password,h .fullName,h .username⟩
  · rintro ⟨he,hp,hf,hu⟩ f
    cases f <;> assumption

instance (vc : SignUpViewController) : Decidable vc.Filled := decidable_of_iff _ vc.filled_iff.symm

theorem filled_congr (vc wc : SignUpViewController) (h : ∀f,wc.field f=vc.field f) :
    wc.Filled ↔ vc.Filled := by
  have hall : ∀f,(wc.field f).hasText=true ↔ (vc.field f).hasText=true := by
    intro f
    rw [h f]
  exact forall_congr' hall

theorem formValidation_enabled (vc : SignUpViewController) :
    vc.formValidation.signUpButton.isEnabled=true ↔ vc.Filled ∧ vc.imageSelected=true := by
  rw [filled_iff]
  unfold formValidation
  split <;> simp_all

/-- Validation changes the button only. -/
theorem formValidation_rest (vc : SignUpViewController) :
    vc.formValidation.plusPhotoButton=vc.plusPhotoButton ∧
    vc.formValidation.imageSelected=vc.imageSelected ∧
    ∀f,vc.formValidation.field f=vc.field f := by
  unfold formValidation
  split <;> exact ⟨rfl,rfl,fun f => by cases f <;> rfl⟩

theorem setText_rest (vc : SignUpViewController) (f : Field) (text : String) :
    (vc.setText f text).plusPhotoButton=vc.plusPhotoButton ∧
    (vc.setText f text).imageSelected=vc.imageSelected := by
  cases f <;> exact ⟨rfl,rfl⟩

/-- A pick changes `imageSelected` and, of all that the validation reads, nothing else. -/
theorem didFinishPickingMedia_rest (vc : SignUpViewController) (image : Option UIImage) :
    (vc.didFinishPickingMedia image).signUpButton=vc.signUpButton ∧
    (vc.didFinishPickingMedia image).imageSelected=image.isSome ∧
    ((vc.didFinishPickingMedia image).Filled ↔ vc.Filled) := by
  have hfields : ∀f,(vc.didFinishPickingMedia image).field f=vc.field f := by
    intro f
    cases image <;> cases f <;> rfl
  refine ⟨?_,?_,filled_congr _ _ hfields⟩
  · cases image <;> rfl
  · cases image <;> rfl

theorem formValidation_fits (p : Platform) (picked : Option UIImage)
    (vc : SignUpViewController) (hphoto : vc.plusPhotoButton=photo p picked)
    (hsel : vc.imageSelected=true → picked≠none) : Fits p picked vc.formValidation := by
  obtain ⟨hp,hs,hf⟩ := vc.formValidation_rest
  refine ⟨hp.trans hphoto,fun h => hsel (hs ▸ h),?_⟩
  intro h
  obtain ⟨hfill,himg⟩ := vc.formValidation_enabled.mp h
  exact ⟨(filled_congr _ _ hf).mpr hfill,hsel himg⟩

theorem editingChanged_fits (p : Platform) (picked : Option UIImage)
    (vc : SignUpViewController) (h : Fits p picked vc) (f : Field) (text : String) :
    Fits p picked (vc.editingChanged f text) := by
  obtain ⟨hp,hs⟩ := vc.setText_rest f text
  exact formValidation_fits p picked _ (hp.trans h.photo) fun hi => h.selected (hs ▸ hi)

/-- A pick without an edited image resets `imageSelected` and leaves the button, and with it
the earlier photo, as it is. -/
theorem didFinishPickingMedia_fits (p : Platform) (picked : Option UIImage)
    (vc : SignUpViewController) (h : Fits p picked vc) (image : Option UIImage) :
    Fits p (image.or picked) (vc.didFinishPickingMedia image) := by
  obtain ⟨_,_,hfilled⟩ := vc.didFinishPickingMedia_rest image
  cases image with
  | none => exact ⟨h.photo,by simp [didFinishPickingMedia],h.enabled⟩
  | some image => exact ⟨rfl,by simp,fun hb => ⟨hfilled.mpr (h.enabled hb).1,by simp⟩⟩

/-- What `handleSignUp` captures, field by field. -/
theorem handleSignUp_captured (p : Platform) (vc : SignUpViewController) (uuid : String)
    (c : SignUp) (h : vc.handleSignUp p uuid=some c) :
    ∃username image,vc.emailTextField.text=some c.email ∧
      vc.passwordTextField.text=some c.password ∧
      vc.fullNameTextField.text=some c.fullName ∧
      vc.usernameTextField.text=some username ∧ c.username=p.lowercased username ∧
      vc.plusPhotoButton=some image ∧ p.jpegData image (3/10)=some c.uploadData ∧
      c.profileImageUID=uuid := by
  simp only [handleSignUp,Option.bind_eq_bind,Option.bind_eq_some_iff,
    Option.map_eq_some_iff] at h
  obtain ⟨email,he,password,hp,fullName,hf,lower,⟨username,hu,hlow⟩,image,hi,data,hd,hc⟩ := h
  cases hc
  exact ⟨username,image,he,hp,hf,hu,hlow.symm,hi,hd,rfl⟩

end SignUpViewController

namespace SignUps

open Framework

/-- The photo that the event picks on screen `n`. -/
def Event.picks (n : Nat) : Event → Option UIImage
  | .pickPhoto m image => if m=n then image else none
  | _ => none

/-- The photo that the user last picked with an edited image on screen `n`. -/
def lastPicked (n : Nat) (es : List Event) : Option UIImage :=
  (es.filterMap (Event.picks n)).getLast?

theorem lastPicked_concat (n : Nat) (es : List Event) (e : Event) :
    lastPicked n (es++[e])=(e.picks n).or (lastPicked n es) := by
  unfold lastPicked
  rw [List.filterMap_append]
  cases he : e.picks n with
  | none => simp [he]
  | some image => simp [he]

theorem onSignUp_fits (p : Platform) (n : Nat) (picked : Option UIImage)
    (vc : SignUpViewController) (h : vc.Fits p picked) (e : Event) :
    (e.onSignUp n vc).Fits p ((e.picks n).or picked) := by
  cases e with
  | editSignUp m f t =>
    simp only [Event.onSignUp,Event.picks,Option.none_or]
    split
    · exact vc.editingChanged_fits p picked h f t
    · exact h
  | validateSignUp m =>
    simp only [Event.onSignUp,Event.picks,Option.none_or]
    split
    · exact vc.formValidation_fits p picked h.photo h.selected
    · exact h
  | pickPhoto m image =>
    simp only [Event.onSignUp,Event.picks]
    split
    · exact vc.didFinishPickingMedia_fits p picked h image
    · exact h
  | tapSignUp | answer | complete | editLogin | validateLogin | tapSignIn | completeSignIn =>
    exact h

/-- Every screen shows the photo last picked on it, and its button is enabled only with all
fields filled and a photo picked. -/
theorem run_fits (p : Platform) (es : List Event) (w : World)
    (h : (machine p).run (World.launch p) es=some w) (n : Nat) :
    (w.signUp n).Fits p (lastPicked n es) := by
  refine (machine p).run_history (fun es w => (w.signUp n).Fits p (lastPicked n es))
    (World.launch p) (SignUpViewController.new_fits p) ?_ es w h
  intro es u e v _ hu hstep
  rw [step_signUp p u v e hstep n,lastPicked_concat]
  exact onSignUp_fits p n _ _ hu e

end SignUps

end ShareImage
