import ShareImage.Framework.Machine
import ShareImage.Framework.Log
import ShareImage.Controller.LoginViewController
import Mathlib.Logic.Function.Basic

namespace ShareImage.SignUps

open Framework

/-- The step a sign-up has reached, with what the nested completions captured on the way and
the reply, once the service has given it. -/
inductive Stage where
  | createUser (reply : Option (Reply String))
  | putData (user : Option String) (reply : Option (Reply Unit))
  | downloadURL (user : Option String) (reply : Option (Reply URL))
  | updateChildValues (uid : String) (values : Dictionary) (reply : Option (Reply Unit))

/-- One tap of the sign-up button that reached `createUser`. It is `finished` when a completion
has run that sends nothing. -/
structure Flow where
  captured : SignUp
  stage : Stage := .createUser none
  finished : Bool := false

structure Account where
  email : String
  password : String
  uid : String
  flow : Nat
  deriving DecidableEq

structure StoredObject where
  path : List String
  data : Data
  url : URL
  flow : Nat
  deriving DecidableEq

/-- A child of `users`: as passed to `updateChildValues`, or as stored. -/
structure Record where
  uid : String
  values : Dictionary
  flow : Nat

/-- The effects of the requests: accounts in Auth, objects in Storage, the values passed to
`updateChildValues`, and the children of `users` that the database accepted. -/
structure Services where
  auth : List Account := []
  storage : List StoredObject := []
  writes : List Record := []
  database : List Record := []

namespace Services

def append (s t : Services) : Services where
  auth := s.auth++t.auth
  storage := s.storage++t.storage
  writes := s.writes++t.writes
  database := s.database++t.database

instance : Append Services := ⟨append⟩

/-- The effects of one sign-up. -/
def of (s : Services) (i : Nat) : Services where
  auth := own Account.flow i s.auth
  storage := own StoredObject.flow i s.storage
  writes := own Record.flow i s.writes
  database := own Record.flow i s.database

/-- The object that Storage serves at a path: the one put there last. -/
def object (s : Services) (path : List String) : Option StoredObject :=
  (s.storage.filter fun o => o.path==path).getLast?

end Services

/-- How a service treats a request. A success brings what the service assigns: the uid of the
account, or the URL of the object. One that is lost on the way back has its effect, but the
completion gets an error. -/
inductive Outcome where
  | success (assigned : String)
  | failure (error : String)
  | nilURL
  | lost (assigned error : String)
  deriving DecidableEq

namespace Outcome

def isLost : Outcome → Bool
  | .lost _ _ => true
  | _ => false

/-- What the service assigns, if the request takes effect. -/
def assigned : Outcome → Option String
  | .success assigned | .lost assigned _ => some assigned
  | _ => none

end Outcome

namespace Flow

/-- The service takes up the request of sign-up `i` and replies. Auth gives no second account
to an email, and no uid twice. -/
def answer (s : Services) (i : Nat) (f : Flow) (outcome : Outcome) : Option (Flow × Services) :=
  match f.stage,outcome with
  | .createUser none,.success uid =>
    if s.auth.any fun a => a.email==f.captured.email || a.uid==uid then none
    else some ({f with stage := .createUser (some ⟨some uid,none⟩)},
      {auth := [⟨f.captured.email,f.captured.password,uid,i⟩]})
  | .createUser none,.failure error =>
    some ({f with stage := .createUser (some ⟨none,some error⟩)},{})
  | .putData user none,.success url =>
    some ({f with stage := .putData user (some ⟨some (),none⟩)},
      {storage := [⟨f.captured.storageRef,f.captured.uploadData,⟨url⟩,i⟩]})
  | .putData user none,.failure error =>
    some ({f with stage := .putData user (some ⟨none,some error⟩)},{})
  | .downloadURL user none,.success _ =>
    (s.object f.captured.storageRef).map fun o =>
      ({f with stage := .downloadURL user (some ⟨some o.url,none⟩)},{})
  | .downloadURL user none,.failure error =>
    some ({f with stage := .downloadURL user (some ⟨none,some error⟩)},{})
  | .downloadURL user none,.nilURL =>
    some ({f with stage := .downloadURL user (some ⟨none,none⟩)},{})
  | .updateChildValues uid values none,.success _ =>
    some ({f with stage := .updateChildValues uid values (some ⟨some (),none⟩)},
      {database := [⟨uid,values,i⟩]})
  | .updateChildValues uid values none,.failure error =>
    some ({f with stage := .updateChildValues uid values (some ⟨none,some error⟩)},{})
  | .createUser none,.lost uid error =>
    if s.auth.any fun a => a.email==f.captured.email || a.uid==uid then none
    else some ({f with stage := .createUser (some ⟨none,some error⟩)},
      {auth := [⟨f.captured.email,f.captured.password,uid,i⟩]})
  | .putData user none,.lost url error =>
    some ({f with stage := .putData user (some ⟨none,some error⟩)},
      {storage := [⟨f.captured.storageRef,f.captured.uploadData,⟨url⟩,i⟩]})
  | .updateChildValues uid values none,.lost _ error =>
    some ({f with stage := .updateChildValues uid values (some ⟨none,some error⟩)},
      {database := [⟨uid,values,i⟩]})
  | _,_ => none

/-- The completion that waits for the reply runs. The one of `updateChildValues` looks at
neither argument and sends nothing. -/
def complete (i : Nat) (f : Flow) : Option (Flow × Services) :=
  if f.finished then none
  else match f.stage with
  | .createUser (some reply) =>
    if SignUp.createUserCompletion reply then
      some ({f with stage := .putData reply.value none},{})
    else some ({f with finished := true},{})
  | .putData user (some reply) =>
    if SignUp.putDataCompletion reply then
      some ({f with stage := .downloadURL user none},{})
    else some ({f with finished := true},{})
  | .downloadURL user (some reply) =>
    match f.captured.downloadURLCompletion user reply with
    | some (uid,values) =>
      some ({f with stage := .updateChildValues uid values none},{writes := [⟨uid,values,i⟩]})
    | none => some ({f with finished := true},{})
  | .updateChildValues _ _ (some _) => some ({f with finished := true},{})
  | _ => none

end Flow

/-- A request of `handleSignIn`, and whether its completion has run. -/
structure SignIn where
  email : String
  password : String
  completed : Bool := false
  deriving DecidableEq

/-- The sign-up and login screens with the three Firebase services behind them. Every screen that is
ever pushed has a number; until its first event it is as built. -/
structure World where
  signUp : Nat → SignUpViewController
  login : Nat → LoginViewController
  uuids : List String := []
  flows : List Flow := []
  signIns : List SignIn := []
  commands : List Command := []
  services : Services := {}

inductive Event where
  | editSignUp (screen : Nat) (field : SignUpViewController.Field) (text : String)
  | validateSignUp (screen : Nat)
  | pickPhoto (screen : Nat) (editedImage : Option UIImage)
  | tapSignUp (screen : Nat) (profileImageUID : String)
  | answer (flow : Nat) (outcome : Outcome)
  | complete (flow : Nat)
  | editLogin (screen : Nat) (field : LoginViewController.Field) (text : String)
  | validateLogin (screen : Nat)
  | tapSignIn (screen : Nat)
  | completeSignIn (request : Nat) (error : Option String)
  deriving DecidableEq

namespace World

def launch (p : Platform) : World where
  signUp := fun _ => SignUpViewController.new p
  login := fun _ => {}

def updateSignUp (w : World) (n : Nat) (f : SignUpViewController → SignUpViewController) :
    World :=
  {w with signUp := Function.update w.signUp n (f (w.signUp n))}

def updateLogin (w : World) (n : Nat) (f : LoginViewController → LoginViewController) : World :=
  {w with login := Function.update w.login n (f (w.login n))}

def tapSignUp (p : Platform) (w : World) (n : Nat) (profileImageUID : String) : World :=
  {w with
    uuids := w.uuids++[profileImageUID]
    flows := w.flows++
      ((w.signUp n).handleSignUp p profileImageUID).toList.map fun c => {captured := c}}

/-- Sign-up `i` becomes `next.1` and the services gain `next.2`. -/
def advance (w : World) (i : Nat) (next : Flow × Services) : World :=
  {w with flows := w.flows.set i next.1,services := w.services++next.2}

def step (p : Platform) (w : World) : Event → Option World
  | .editSignUp n f t => some (w.updateSignUp n fun vc => vc.editingChanged f t)
  | .validateSignUp n => some (w.updateSignUp n fun vc => vc.formValidation)
  | .pickPhoto n image => some (w.updateSignUp n fun vc => vc.didFinishPickingMedia image)
  | .tapSignUp n uuid =>
    -- `NSUUID()` gives no value twice
    if (w.signUp n).signUpButton.isEnabled && !w.uuids.contains uuid then
      some (w.tapSignUp p n uuid)
    else none
  | .answer i outcome => do
    let f ← w.flows[i]?
    let next ← f.answer w.services i outcome
    return w.advance i next
  | .complete i => do
    let f ← w.flows[i]?
    let next ← f.complete i
    return w.advance i next
  | .editLogin n f t => some (w.updateLogin n fun vc => vc.editingChanged f t)
  | .validateLogin n => some (w.updateLogin n fun vc => vc.formValidation)
  | .tapSignIn n =>
    if (w.login n).signInButton.isEnabled then
      (w.login n).handleSignIn.map fun (email,password) =>
        {w with signIns := w.signIns++[{email,password}]}
    else none
  | .completeSignIn k error => do
    let request ← w.signIns[k]?
    if request.completed then none
    else return {w with
      signIns := w.signIns.set k {request with completed := true}
      commands := w.commands++LoginViewController.signInCompletion error}

end World

def machine (p : Platform) : Machine World Event := ⟨World.step p⟩

/-- A photo is picked on screen `n`, the four fields are typed in and the button is tapped. -/
def submission (n : Nat) (image : UIImage) (email password fullName username : String)
    (profileImageUID : String) : List Event :=
  [.pickPhoto n (some image),.editSignUp n .email email,.editSignUp n .password password,
    .editSignUp n .fullName fullName,.editSignUp n .username username,
    .tapSignUp n profileImageUID]

end ShareImage.SignUps
