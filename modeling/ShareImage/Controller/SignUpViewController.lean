import ShareImage.Model.User

namespace ShareImage

structure UITextField where
  text : Option String := some ""
  deriving DecidableEq

def UITextField.hasText (field : UITextField) : Bool :=
  match field.text with
  | some text => !decide (text="")
  | none => false

structure UIColor where
  red : Nat
  green : Nat
  blue : Nat
  deriving DecidableEq

structure UIButton where
  isEnabled : Bool
  backgroundColor : UIColor
  deriving DecidableEq

/-- The blue a form's button has while the form is incomplete, over 255. -/
def pale : UIColor := ⟨149,204,244⟩

def vivid : UIColor := ⟨17,154,237⟩

/-- The stored properties that the sign-up screen's handlers read or write.
`plusPhotoButton` is the image that the button's `imageView` shows. -/
structure SignUpViewController where
  imageSelected : Bool := false
  plusPhotoButton : Option UIImage
  emailTextField : UITextField := {}
  passwordTextField : UITextField := {}
  fullNameTextField : UITextField := {}
  usernameTextField : UITextField := {}
  signUpButton : UIButton := ⟨false,pale⟩
  deriving DecidableEq

/-- What the completion handlers of one sign-up capture from the form, with the path of
`storageRef` and the JPEG data made before the first request. -/
structure SignUp where
  email : String
  password : String
  fullName : String
  username : String
  profileImageUID : String
  uploadData : Data
  deriving DecidableEq

def SignUp.storageRef (c : SignUp) : List String := ["profile_images",c.profileImageUID]

namespace SignUpViewController

def new (p : Platform) : SignUpViewController where
  plusPhotoButton := some (UIImage.withRenderingMode {pixels := p.plusButton} .alwaysOriginal)

inductive Field where
  | email
  | password
  | fullName
  | username
  deriving DecidableEq

def field (vc : SignUpViewController) : Field → UITextField
  | .email => vc.emailTextField
  | .password => vc.passwordTextField
  | .fullName => vc.fullNameTextField
  | .username => vc.usernameTextField

def setText (vc : SignUpViewController) (f : Field) (text : String) : SignUpViewController :=
  match f with
  | .email => {vc with emailTextField := ⟨some text⟩}
  | .password => {vc with passwordTextField := ⟨some text⟩}
  | .fullName => {vc with fullNameTextField := ⟨some text⟩}
  | .username => {vc with usernameTextField := ⟨some text⟩}

def formValidation (vc : SignUpViewController) : SignUpViewController :=
  if vc.emailTextField.hasText && vc.passwordTextField.hasText &&
      vc.fullNameTextField.hasText && vc.usernameTextField.hasText &&
      vc.imageSelected==true then
    {vc with signUpButton := ⟨true,vivid⟩}
  else
    {vc with signUpButton := ⟨false,pale⟩}

/-- Typing into a field raises `.editingChanged`, whose target is `formValidation`. -/
def editingChanged (vc : SignUpViewController) (f : Field) (text : String) :
    SignUpViewController :=
  (vc.setText f text).formValidation

/-- `imagePickerController(_:didFinishPickingMediaWithInfo:)`, on the image that the info
dictionary has under `.editedImage`. -/
def didFinishPickingMedia (vc : SignUpViewController) (editedImage : Option UIImage) :
    SignUpViewController :=
  match editedImage with
  | none => {vc with imageSelected := false}
  | some profileImage =>
    {vc with
      imageSelected := true
      plusPhotoButton := some (profileImage.withRenderingMode .alwaysOriginal)}

/-- `handleSignUp` up to its first request, with the UUID that `NSUUID()` gave. -/
def handleSignUp (p : Platform) (vc : SignUpViewController) (profileImageUID : String) :
    Option SignUp := do
  let email ← vc.emailTextField.text
  let password ← vc.passwordTextField.text
  let fullName ← vc.fullNameTextField.text
  let username ← vc.usernameTextField.text.map p.lowercased
  let profileImage ← vc.plusPhotoButton
  let uploadData ← p.jpegData profileImage (3/10)
  return {email,password,fullName,username,profileImageUID,uploadData}

end SignUpViewController

/-- The arguments of a completion handler, `(value?, error?)`. -/
structure Reply (α : Type) where
  value : Option α
  error : Option String
  deriving DecidableEq

namespace SignUp

/-- The completion of `createUser`: true if it goes on to `putData`. -/
def createUserCompletion (reply : Reply String) : Bool :=
  match reply.error with
  | some _ => false
  | none => true

/-- The completion of `putData`: true if it goes on to `downloadURL`. -/
def putDataCompletion (reply : Reply Unit) : Bool :=
  match reply.error with
  | some _ => false
  | none => true

def dictionaryValues (c : SignUp) (profileImageURL : String) : Dictionary :=
  [("photo UID",.string c.profileImageUID),
    ("profileImageUrl",.string profileImageURL),
    ("email",.string c.email),
    ("password",.string c.password),
    ("fullname",.string c.fullName),
    ("username",.string c.username)]

/-- The completion of `downloadURL`: the values it passes to `updateChildValues`. It looks at
the URL and never at the error; `user` is what the completion of `createUser` was given. -/
def downloadURLCompletion (c : SignUp) (user : Option String) (reply : Reply URL) :
    Option (String × Dictionary) := do
  let profileImageURL ← reply.value.map URL.absoluteString
  let uid ← user
  return (uid,c.dictionaryValues profileImageURL)

end SignUp

end ShareImage
