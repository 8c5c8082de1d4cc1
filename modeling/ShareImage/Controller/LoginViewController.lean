import ShareImage.Controller.SignUpViewController

namespace ShareImage

structure LoginViewController where
  emailTextField : UITextField := {}
  passwordTextField : UITextField := {}
  signInButton : UIButton := ⟨false,pale⟩
  deriving DecidableEq

/-- What the sign-in completion asks of the rest of the app, in order. -/
inductive Command where
  | configureViewControllers
  | dismiss
  deriving DecidableEq

namespace LoginViewController

inductive Field where
  | email
  | password
  deriving DecidableEq

def setText (vc : LoginViewController) (f : Field) (text : String) : LoginViewController :=
  match f with
  | .email => {vc with emailTextField := ⟨some text⟩}
  | .password => {vc with passwordTextField := ⟨some text⟩}

def formValidation (vc : LoginViewController) : LoginViewController :=
  if vc.emailTextField.hasText && vc.passwordTextField.hasText then
    {vc with signInButton := ⟨true,vivid⟩}
  else
    {vc with signInButton := ⟨false,pale⟩}

def editingChanged (vc : LoginViewController) (f : Field) (text : String) :
    LoginViewController :=
  (vc.setText f text).formValidation

/-- `handleSignIn` up to its request: the email and the password given to `signIn`. -/
def handleSignIn (vc : LoginViewController) : Option (String × String) := do
  let email ← vc.emailTextField.text
  let password ← vc.passwordTextField.text
  return (email,password)

/-- The completion of `signIn`, with the main tab controller as the root of the key window. -/
def signInCompletion (error : Option String) : List Command :=
  match error with
  | some _ => []
  | none => [.configureViewControllers,.dismiss]

end LoginViewController

end ShareImage
