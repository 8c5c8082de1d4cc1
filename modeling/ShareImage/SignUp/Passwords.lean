import ShareImage.SignUp.Invariant
import Mathlib.Data.List.Forall2

namespace ShareImage

/-- The code looks at a password only to see whether it is empty. -/
def mask (password : String) : String := if password="" then "" else "*"

theorem mask_eq_empty (password : String) : mask password="" ↔ password="" := by
  unfold mask
  split <;> simp_all

theorem mask_congr (a b : String) (h : a="" ↔ b="") : mask a=mask b := by
  simp only [mask,h]

def UITextField.mask (field : UITextField) : UITextField := ⟨field.text.map ShareImage.mask⟩

theorem UITextField.mask_hasText (field : UITextField) : field.mask.hasText=field.hasText := by
  unfold UITextField.mask UITextField.hasText
  cases field.text <;> simp [mask_eq_empty]

namespace SignUpViewController

def mask (vc : SignUpViewController) : SignUpViewController :=
  {vc with passwordTextField := vc.passwordTextField.mask}

def Field.mask (f : Field) (text : String) : String :=
  match f with
  | .password => ShareImage.mask text
  | _ => text

theorem mask_formValidation (vc : SignUpViewController) :
    vc.mask.formValidation=vc.formValidation.mask := by
  simp only [formValidation,mask,UITextField.mask_hasText]
  split <;> rfl

theorem mask_setText (vc : SignUpViewController) (f : Field) (text : String) :
    vc.mask.setText f (f.mask text)=(vc.setText f text).mask := by
  cases f <;> rfl

theorem mask_editingChanged (vc : SignUpViewController) (f : Field) (text : String) :
    vc.mask.editingChanged f (f.mask text)=(vc.editingChanged f text).mask := by
  rw [editingChanged,mask_setText,mask_formValidation]
  rfl

theorem mask_didFinishPickingMedia (vc : SignUpViewController) (image : Option UIImage) :
    vc.mask.didFinishPickingMedia image=(vc.didFinishPickingMedia image).mask := by
  cases image <;> rfl

end SignUpViewController

namespace LoginViewController

def mask (vc : LoginViewController) : LoginViewController :=
  {vc with passwordTextField := vc.passwordTextField.mask}

def Field.mask (f : Field) (text : String) : String :=
  match f with
  | .password => ShareImage.mask text
  | _ => text

theorem mask_formValidation (vc : LoginViewController) :
    vc.mask.formValidation=vc.formValidation.mask := by
  simp only [formValidation,mask,UITextField.mask_hasText]
  split <;> rfl

theorem mask_editingChanged (vc : LoginViewController) (f : Field) (text : String) :
    vc.mask.editingChanged f (f.mask text)=(vc.editingChanged f text).mask := by
  have hset : vc.mask.setText f (f.mask text)=(vc.setText f text).mask := by cases f <;> rfl
  rw [editingChanged,hset,mask_formValidation]
  rfl

end LoginViewController

def AnyObject.mask : AnyObject → AnyObject
  | .string value => .string (ShareImage.mask value)
  | value => value

/-- The entry, masked if its key is that of the password. -/
def maskEntry (entry : String × AnyObject) : String × AnyObject :=
  (entry.1,if entry.1="password" then entry.2.mask else entry.2)

def Dictionary.mask (d : Dictionary) : Dictionary := List.map maskEntry d

def Dictionary.withoutPassword (d : Dictionary) : Dictionary :=
  d.filter fun entry => entry.1≠"password"

theorem maskEntry_other (entry : String × AnyObject) (h : entry.1≠"password") :
    maskEntry entry=entry := by
  simp [maskEntry,h]

theorem Dictionary.mask_withoutPassword (d : Dictionary) :
    d.mask.withoutPassword=d.withoutPassword := by
  induction d with
  | nil => rfl
  | cons entry d ih =>
    have ih' : List.filter (fun entry : String × AnyObject => entry.1≠"password")
        (List.map maskEntry d)=List.filter (fun entry => entry.1≠"password") d := ih
    have hkey : (maskEntry entry).1=entry.1 := rfl
    simp only [mask,withoutPassword,List.map_cons,List.filter_cons,hkey,ih']
    by_cases h : entry.1="password"
    · simp [h]
    · simp [h,maskEntry_other entry h]

theorem Dictionary.mask_lookup (d : Dictionary) (key : String) (hkey : key≠"password") :
    d.mask.lookup key=d.lookup key := by
  induction d with
  | nil => rfl
  | cons entry d ih =>
    obtain ⟨k,v⟩ := entry
    have ih' : List.lookup key (List.map maskEntry d)=List.lookup key d := ih
    simp only [mask,List.map_cons]
    by_cases h : k="password"
    · have hne : (key==k)=false := by simpa [h] using hkey
      rw [maskEntry,List.lookup_cons,List.lookup_cons,hne,ih']
    · rw [maskEntry_other (k,v) h,List.lookup_cons,List.lookup_cons,ih']

theorem User.init_mask (uid : String) (d : Dictionary) : User.init uid d.mask=User.init uid d := by
  apply User.init_congr
  intro key hkey
  apply Dictionary.mask_lookup
  rintro rfl
  simp at hkey

def SignUp.mask (c : SignUp) : SignUp := {c with password := ShareImage.mask c.password}

theorem SignUp.mask_dictionaryValues (c : SignUp) (url : String) :
    c.mask.dictionaryValues url=(c.dictionaryValues url).mask := by
  simp [dictionaryValues,Dictionary.mask,maskEntry,AnyObject.mask,mask]

theorem SignUp.mask_downloadURLCompletion (c : SignUp) (user : Option String)
    (reply : Reply URL) : c.mask.downloadURLCompletion user reply=
      (c.downloadURLCompletion user reply).map fun (uid,d) => (uid,d.mask) := by
  unfold downloadURLCompletion
  cases reply.value <;> cases user <;> simp [mask_dictionaryValues]

theorem SignUpViewController.mask_handleSignUp (p : Platform) (vc : SignUpViewController)
    (uuid : String) : vc.mask.handleSignUp p uuid=(vc.handleSignUp p uuid).map SignUp.mask := by
  unfold handleSignUp
  cases h1 : vc.emailTextField.text <;> cases h2 : vc.passwordTextField.text <;>
    cases h3 : vc.fullNameTextField.text <;> cases h4 : vc.usernameTextField.text <;>
    cases h5 : vc.plusPhotoButton <;> simp [mask,UITextField.mask,h1,h2,h3,h4,h5]
  rename_i image
  cases p.jpegData image (3/10) <;> simp [SignUp.mask]

namespace SignUps

open Framework

namespace Stage

def mask : Stage → Stage
  | .updateChildValues uid values reply => .updateChildValues uid values.mask reply
  | stage => stage

end Stage

def Flow.mask (f : Flow) : Flow := {f with captured := f.captured.mask,stage := f.stage.mask}

def Account.mask (a : Account) : Account := {a with password := ShareImage.mask a.password}

def Record.mask (r : Record) : Record := {r with values := r.values.mask}

def Record.withoutPassword (r : Record) : Record := {r with values := r.values.withoutPassword}

def Services.mask (s : Services) : Services where
  auth := s.auth.map Account.mask
  storage := s.storage
  writes := s.writes.map Record.mask
  database := s.database.map Record.mask

def SignIn.mask (r : SignIn) : SignIn := {r with password := ShareImage.mask r.password}

def World.mask (w : World) : World where
  signUp := fun n => (w.signUp n).mask
  login := fun n => (w.login n).mask
  uuids := w.uuids
  flows := w.flows.map Flow.mask
  signIns := w.signIns.map SignIn.mask
  commands := w.commands
  services := w.services.mask

def Event.mask : Event → Event
  | .editSignUp n f t => .editSignUp n f (f.mask t)
  | .editLogin n f t => .editLogin n f (f.mask t)
  | e => e

def maskNext (next : Flow × Services) : Flow × Services := (next.1.mask,next.2.mask)

theorem mask_append (s t : Services) : (s++t).mask=s.mask++t.mask := by
  ext1 <;> simp [Services.mask]

theorem mask_object (s : Services) (path : List String) : s.mask.object path=s.object path := rfl

theorem mask_registered (s : Services) (email uid : String) :
    s.mask.auth.any (fun a => a.email==email || a.uid==uid)=
      s.auth.any fun a => a.email==email || a.uid==uid := by
  simp [Services.mask,Account.mask,Function.comp_def]

theorem mask_answer (s : Services) (i : Nat) (f : Flow) (outcome : Outcome) :
    f.mask.answer s.mask i outcome=(f.answer s i outcome).map maskNext := by
  obtain ⟨c,stage,finished⟩ := f
  cases stage with
  | createUser reply =>
    cases reply with
    | some reply => rfl
    | none =>
      cases outcome with
      | success uid | lost uid error =>
        simp only [Flow.answer,Flow.mask,Stage.mask,mask_registered,SignUp.mask]
        split <;> rfl
      | failure | nilURL => rfl
  | putData user reply => cases reply <;> cases outcome <;> rfl
  | downloadURL user reply =>
    cases reply with
    | some reply => rfl
    | none =>
      cases outcome with
      | success assigned =>
        simp only [Flow.answer,Flow.mask,Stage.mask,mask_object,SignUp.mask,SignUp.storageRef]
        rw [Option.map_map]
        rfl
      | failure | nilURL | lost => rfl
  | updateChildValues uid values reply => cases reply <;> cases outcome <;> rfl

theorem mask_complete (i : Nat) (f : Flow) :
    f.mask.complete i=(f.complete i).map maskNext := by
  obtain ⟨c,stage,finished⟩ := f
  cases finished with
  | true => rfl
  | false =>
    cases stage with
    | createUser reply =>
      cases reply with
      | none => rfl
      | some reply => cases h : reply.error <;> simp [Flow.complete,Flow.mask,Stage.mask,
          SignUp.createUserCompletion,h] <;> rfl
    | putData user reply =>
      cases reply with
      | none => rfl
      | some reply => cases h : reply.error <;> simp [Flow.complete,Flow.mask,Stage.mask,
          SignUp.putDataCompletion,h] <;> rfl
    | downloadURL user reply =>
      cases reply with
      | none => rfl
      | some reply =>
        simp only [Flow.complete,Flow.mask,Stage.mask,SignUp.mask_downloadURLCompletion]
        cases c.downloadURLCompletion user reply <;> rfl
    | updateChildValues uid values reply => cases reply <;> rfl

theorem mask_updateSignUp (w : World) (n : Nat)
    (f g : SignUpViewController → SignUpViewController)
    (h : ∀vc,f vc.mask=(g vc).mask) : w.mask.updateSignUp n f=(w.updateSignUp n g).mask := by
  have hscreens := Function.comp_update SignUpViewController.mask w.signUp n (g (w.signUp n))
  rw [←h] at hscreens
  simp only [World.updateSignUp,World.mask]
  exact congrArg (fun screens => {w.mask with signUp := screens}) hscreens.symm

theorem mask_updateLogin (w : World) (n : Nat) (f g : LoginViewController → LoginViewController)
    (h : ∀vc,f vc.mask=(g vc).mask) : w.mask.updateLogin n f=(w.updateLogin n g).mask := by
  have hscreens := Function.comp_update LoginViewController.mask w.login n (g (w.login n))
  rw [←h] at hscreens
  simp only [World.updateLogin,World.mask]
  exact congrArg (fun screens => {w.mask with login := screens}) hscreens.symm

theorem mask_tapSignUp (p : Platform) (w : World) (n : Nat) (uuid : String) :
    w.mask.tapSignUp p n uuid=(w.tapSignUp p n uuid).mask := by
  simp only [World.tapSignUp,World.mask,SignUpViewController.mask_handleSignUp,List.map_append]
  cases (w.signUp n).handleSignUp p uuid <;> rfl

theorem mask_advance (w : World) (i : Nat) (next : Flow × Services) :
    w.mask.advance i (maskNext next)=(w.advance i next).mask := by
  simp only [World.advance,World.mask,maskNext,mask_append,List.map_set]

/-- Masking commutes with a step of one sign-up. -/
theorem mask_flowStep (w : World) (i : Nat) (act act' : Flow → Option (Flow × Services))
    (h : ∀f,act' f.mask=(act f).map maskNext) :
    (w.mask.flows[i]?.bind fun f => (act' f).bind fun next => some (w.mask.advance i next))=
      (w.flows[i]?.bind fun f => (act f).bind fun next => some (w.advance i next)).map
        World.mask := by
  have hflow : w.mask.flows[i]?=w.flows[i]?.map Flow.mask := List.getElem?_map
  rw [hflow]
  cases w.flows[i]? with
  | none => rfl
  | some f =>
    simp only [Option.map_some,Option.bind_some,h f]
    cases act f with
    | none => rfl
    | some next => exact congrArg some (mask_advance w i next)

/-- Masking commutes with every step. -/
theorem mask_step (p : Platform) (w : World) (e : Event) :
    w.mask.step p e.mask=(w.step p e).map World.mask := by
  cases e with
  | editSignUp n f t =>
    exact congrArg some (mask_updateSignUp w n _ _ fun vc => vc.mask_editingChanged f t)
  | validateSignUp n =>
    exact congrArg some (mask_updateSignUp w n _ _ fun vc => vc.mask_formValidation)
  | pickPhoto n image =>
    exact congrArg some (mask_updateSignUp w n _ _ fun vc => vc.mask_didFinishPickingMedia image)
  | tapSignUp n uuid =>
    simp only [World.step,Event.mask,mask_tapSignUp]
    change (if (w.signUp n).signUpButton.isEnabled && !w.uuids.contains uuid then _ else _)=_
    split <;> rfl
  | answer i outcome =>
    exact mask_flowStep w i _ _ fun f => mask_answer w.services i f outcome
  | complete i => exact mask_flowStep w i _ _ (mask_complete i)
  | editLogin n f t =>
    exact congrArg some (mask_updateLogin w n _ _ fun vc => vc.mask_editingChanged f t)
  | validateLogin n =>
    exact congrArg some (mask_updateLogin w n _ _ fun vc => vc.mask_formValidation)
  | tapSignIn n =>
    have hlogin : w.mask.login n=(w.login n).mask := rfl
    simp only [World.step,Event.mask,hlogin]
    change (if (w.login n).signInButton.isEnabled then _ else _)=_
    split
    · simp only [LoginViewController.handleSignIn,LoginViewController.mask,UITextField.mask]
      cases (w.login n).emailTextField.text <;> cases (w.login n).passwordTextField.text <;>
        simp [World.mask,SignIn.mask]
    · rfl
  | completeSignIn k error =>
    have hrequest : w.mask.signIns[k]?=w.signIns[k]?.map SignIn.mask := List.getElem?_map
    simp only [World.step,Event.mask,Option.bind_eq_bind,hrequest]
    cases w.signIns[k]? with
    | none => rfl
    | some request =>
      simp only [Option.map_some,Option.bind_some]
      change (if request.completed=true then _ else _)=_
      split
      · rfl
      · simp [World.mask,SignIn.mask,List.map_set]

theorem mask_launch (p : Platform) : (World.launch p).mask=World.launch p := by
  simp [World.launch,World.mask,Services.mask,SignUpViewController.mask,SignUpViewController.new,
    LoginViewController.mask,UITextField.mask,mask]

theorem mask_run (p : Platform) (es : List Event) :
    (machine p).run (World.launch p) (es.map Event.mask)=
      ((machine p).run (World.launch p) es).map World.mask := by
  have h := (machine p).run_map World.mask Event.mask (mask_step p) (World.launch p) es
  rwa [mask_launch] at h

/-- The events differ at most in the text typed into a password field, and not in whether it is
empty. -/
inductive SameButPassword : Event → Event → Prop
  | same (e) : SameButPassword e e
  | signUp (n t t') (h : t="" ↔ t'="") :
      SameButPassword (.editSignUp n .password t) (.editSignUp n .password t')
  | login (n t t') (h : t="" ↔ t'="") :
      SameButPassword (.editLogin n .password t) (.editLogin n .password t')

theorem SameButPassword.mask_eq {e e' : Event} (h : SameButPassword e e') : e.mask=e'.mask := by
  cases h with
  | same => rfl
  | signUp n t t' h =>
    simp only [Event.mask,SignUpViewController.Field.mask,mask_congr t t' h]
  | login n t t' h =>
    simp only [Event.mask,LoginViewController.Field.mask,mask_congr t t' h]

theorem map_mask_eq {es es' : List Event} (h : List.Forall₂ SameButPassword es es') :
    es.map Event.mask=es'.map Event.mask := by
  induction h with
  | nil => rfl
  | cons he _ ih => rw [List.map_cons,List.map_cons,he.mask_eq,ih]

theorem mask_eq_of_runs (p : Platform) (es es' : List Event) (w w' : World)
    (hes : List.Forall₂ SameButPassword es es') (h : (machine p).run (World.launch p) es=some w)
    (h' : (machine p).run (World.launch p) es'=some w') : w.mask=w'.mask := by
  have hw := mask_run p es
  have hw' := mask_run p es'
  rw [h] at hw
  rw [h',←map_mask_eq hes,hw] at hw'
  exact Option.some.inj hw'

/-- What a client receives from `users/<uid>`. -/
def Services.snapshot (s : Services) (uid : String) : Option Dictionary :=
  ((s.database.filter fun r => r.uid==uid).getLast?).map Record.values

theorem mask_snapshot (s : Services) (uid : String) :
    s.mask.snapshot uid=(s.snapshot uid).map Dictionary.mask := by
  have hcomp : (fun r : Record => r.uid==uid)∘Record.mask=fun r => r.uid==uid := rfl
  simp only [Services.snapshot,Services.mask,List.filter_map,hcomp,List.getLast?_map,
    Option.map_map]
  rfl

theorem map_withoutPassword (rs : List Record) :
    (rs.map Record.mask).map Record.withoutPassword=rs.map Record.withoutPassword := by
  rw [List.map_map]
  apply List.map_congr_left
  intro r _
  simp [Record.mask,Record.withoutPassword,Dictionary.mask_withoutPassword]

/-- Two runs that differ in passwords only pass the same values to the database in the same
order, up to the text of the entry under `password`, and every user that a client decodes from
`users` is the same. -/
theorem writes_same_but_password (p : Platform) (es es' : List Event) (w w' : World)
    (hes : List.Forall₂ SameButPassword es es') (h : (machine p).run (World.launch p) es=some w)
    (h' : (machine p).run (World.launch p) es'=some w') :
    w.services.writes.map Record.mask=w'.services.writes.map Record.mask ∧
    w.services.writes.map Record.withoutPassword=w'.services.writes.map Record.withoutPassword ∧
    w.services.database.map Record.mask=w'.services.database.map Record.mask ∧
    w.services.database.map Record.withoutPassword=
      w'.services.database.map Record.withoutPassword ∧
    ∀uid,(w.services.snapshot uid).map (User.init uid)=
      (w'.services.snapshot uid).map (User.init uid) := by
  have hs : w.services.mask=w'.services.mask :=
    congrArg World.services (mask_eq_of_runs p es es' w w' hes h h')
  have hwrites : w.services.writes.map Record.mask=w'.services.writes.map Record.mask :=
    congrArg Services.writes hs
  have hdatabase : w.services.database.map Record.mask=w'.services.database.map Record.mask :=
    congrArg Services.database hs
  refine ⟨hwrites,?_,hdatabase,?_,?_⟩
  · rw [←map_withoutPassword w.services.writes,hwrites,map_withoutPassword]
  · rw [←map_withoutPassword w.services.database,hdatabase,map_withoutPassword]
  · intro uid
    have decoded (s : Services) :
        (s.mask.snapshot uid).map (User.init uid)=(s.snapshot uid).map (User.init uid) := by
      rw [mask_snapshot,Option.map_map]
      congr 1
      funext d
      exact User.init_mask uid d
    rw [←decoded w.services,←decoded w'.services,hs]

/-- A sign-up that goes through, with the password typed. -/
def signedUpWith (password : String) : List Event :=
  submission 0 {pixels := [7]} "a@x.org" password "Ann Lee" "Ann" "U1"++
    [.answer 0 (.success "uid1"),.complete 0,.answer 0 (.success "https://i/1"),.complete 0,
      .answer 0 (.success ""),.complete 0,.answer 0 (.success "")]

theorem signedUpWith_same (a b : String) (h : a="" ↔ b="") :
    List.Forall₂ SameButPassword (signedUpWith a) (signedUpWith b) :=
  .cons (.same _) (.cons (.same _) (.cons (.signUp 0 a b h)
    (List.forall₂_same.mpr fun e _ => .same e)))

theorem writes_same_but_password_signedUpWith :
    ∃w w',(machine .plain).run (World.launch .plain) (signedUpWith "one")=some w ∧
      (machine .plain).run (World.launch .plain) (signedUpWith "two")=some w' ∧
      w.services.database.length=1 ∧
      w.services.writes.map Record.mask=w'.services.writes.map Record.mask := by
  refine ⟨_,_,rfl,rfl,rfl,?_⟩
  exact (writes_same_but_password .plain (signedUpWith "one") (signedUpWith "two") _ _
    (signedUpWith_same "one" "two" (by decide)) rfl rfl).1

theorem writes_depend_on_password :
    ¬∀(es es' : List Event) (w w' : World),List.Forall₂ SameButPassword es es' →
      (machine .plain).run (World.launch .plain) es=some w →
      (machine .plain).run (World.launch .plain) es'=some w' →
      w.services.writes=w'.services.writes := by
  intro h
  have hw := h (signedUpWith "one") (signedUpWith "two") _ _
    (signedUpWith_same "one" "two" (by decide)) rfl rfl
  have hvalues := congrArg (List.map fun r : Record => r.values.string "password") hw
  exact absurd hvalues (by decide)

end SignUps

end ShareImage
