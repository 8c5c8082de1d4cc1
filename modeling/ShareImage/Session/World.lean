import ShareImage.Framework.Machine
import ShareImage.Controller.MainTabViewController
import Mathlib.Logic.Function.Basic

namespace ShareImage.Session

open Framework

/-- What the user of a presented login UI sees: the login screen, the sign-up screen pushed on it,
or the photo picker that the sign-up screen has presented. -/
inductive Screen where
  | login
  | signUp
  | photoPicker
  deriving DecidableEq

/-- A presented login controller with its navigation controller. -/
structure LoginUI where
  id : Nat
  screen : Screen := .login
  deriving DecidableEq

/-- What is presented over the tab bar: nothing, the logout alert of the feed controller of a
generation of tab controllers, or a login UI. -/
inductive Presented where
  | nothing
  | alert (feed : Nat)
  | login (ui : LoginUI)
  deriving DecidableEq

def Presented.loginId : Presented → Option Nat
  | .login ui => some ui.id
  | _ => none

inductive Request where
  | signIn (login : Nat)
  | createUser
  deriving DecidableEq

/-- A callback of an answered request, with the error it is given. -/
structure Callback where
  request : Request
  error : Option String
  deriving DecidableEq

/-- A header of the profile controller of a generation waits for the value of `users/<uid>`. -/
structure Fetch where
  generation : Nat
  uid : String
  deriving DecidableEq

/-- Auth's current user, the controllers of the tab bar and what is presented over them. Touches
reach only what is on screen. -/
structure World where
  currentUser : Option String
  /-- How often `currentUser` has changed so far. -/
  changes : Nat := 0
  /-- How often `configureViewControllers` has replaced the tab controllers. -/
  generation : Nat := 0
  /-- What `changes` was when the present tab controllers were built. -/
  builtAt : Nat := 0
  selected : Tab := .feed
  presented : Presented := .nothing
  /-- The login controllers created so far. -/
  logins : Nat := 0
  /-- The block that `checkInUserIsLoggedIn` posted has not run yet. -/
  launchBlock : Bool
  requests : List Request := []
  callbacks : List Callback := []
  fetches : List Fetch := []
  profile : Nat → UserProfileCollectionViewController := fun _ => {}
  /-- The generations whose search controller observes `users`. -/
  observers : List Nat := []
  trapped : Bool := false

inductive Event where
  | launched
  | tapSignIn
  | showSignUp
  | back
  | openPicker
  | closePicker
  | tapSignUp
  | select (tab : Tab)
  | tapLogout
  | cancelLogout
  | confirmLogout (error : Option String)
  | answer (request : Nat) (result : Except String String)
  | runCallback (position : Nat)
  | requestHeader
  | completeFetch (fetch : Nat) (value : AnyObject)
  | loadSearch
  | forcedSignOut

namespace World

/-- `MainTabViewController.viewDidLoad`, with the user that Auth has stored. -/
def launch (currentUser : Option String) : World where
  currentUser := currentUser
  launchBlock := MainTabViewController.checkInUserIsLoggedIn currentUser

/-- The login UI hides the tab bar; the alert does not. -/
def covered (w : World) : Bool := w.presented.loginId.isSome

def setUser (w : World) (user : Option String) : World :=
  {w with
    currentUser := user
    changes := if w.currentUser=user then w.changes else w.changes+1}

/-- A new login controller is presented, if `effective`. -/
def presentLogin (w : World) (effective : Bool) : World :=
  {w with
    presented := if effective then .login {id := w.logins} else w.presented
    logins := w.logins+1}

/-- The selected index stays. -/
def configureViewControllers (w : World) : World :=
  {w with generation := w.generation+1,builtAt := w.changes}

/-- `dismiss` of the login controller: of the picker, if one is presented over it, else of the
login UI. A controller that is no longer presented dismisses nothing. -/
def dismiss (w : World) (login : Nat) : World :=
  match w.presented with
  | .login ui =>
    if ui.id=login then
      {w with presented := if ui.screen=.photoPicker then .login ⟨login,.signUp⟩ else .nothing}
    else w
  | _ => w

def perform (login : Nat) (w : World) : Command → World
  | .configureViewControllers => w.configureViewControllers
  | .dismiss => w.dismiss login

/-- The callback of `createUser` goes on with the upload, and leaves the session alone. -/
def call (w : World) (c : Callback) : World :=
  match c.request with
  | .signIn login => (LoginViewController.signInCompletion c.error).foldl (perform login) w
  | .createUser => w

/-- Auth answers: a success makes its user current before the callback runs. -/
def answered (w : World) (k : Nat) (request : Request) : Except String String → World
  | .ok uid =>
    {w.setUser (some uid) with
      requests := w.requests.eraseIdx k,callbacks := w.callbacks++[⟨request,none⟩]}
  | .error error =>
    {w with requests := w.requests.eraseIdx k,callbacks := w.callbacks++[⟨request,some error⟩]}

/-- A touch of a login UI. -/
def touchLogin (w : World) : Event → LoginUI → Option World
  | .tapSignIn,⟨id,.login⟩ => some {w with requests := w.requests++[.signIn id]}
  | .showSignUp,⟨id,.login⟩ => some {w with presented := .login ⟨id,.signUp⟩}
  | .back,⟨id,.signUp⟩ => some {w with presented := .login ⟨id,.login⟩}
  | .openPicker,⟨id,.signUp⟩ => some {w with presented := .login ⟨id,.photoPicker⟩}
  | .closePicker,⟨id,.photoPicker⟩ => some {w with presented := .login ⟨id,.signUp⟩}
  | .tapSignUp,⟨_,.signUp⟩ => some {w with requests := w.requests++[.createUser]}
  | _,_ => none

/-- A touch of the logout alert. The alert is gone when an action of it runs; the feed controller
presents the login controller in vain if it has left the tab bar, unless UIKit `detached` lets such
a controller present. -/
def touchAlert (detached : Bool) (w : World) (feed : Nat) : Event → Option World
  | .cancelLogout => some {w with presented := .nothing}
  | .confirmLogout error =>
    let w' := {w with presented := .nothing}
    if FeedCollectionViewController.logoutAction error then
      some ((w'.setUser none).presentLogin (feed==w.generation || detached))
    else some w'
  | _ => none

def touchTabs (w : World) : Event → Option World
  | .select tab => some {w with selected := tab}
  | .tapLogout => if w.selected=.feed then some {w with presented := .alert w.generation} else none
  | _ => none

/-- The app: Auth, the database and the main queue; `none` where the event is a touch. -/
def react (w : World) : Event → Option World
  | .launched =>
    if w.launchBlock then
      -- a presentation over another one has no effect
      some ({w with launchBlock := false}.presentLogin (w.presented==Presented.nothing))
    else none
  | .answer k result => w.requests[k]?.map fun request => w.answered k request result
  | .runCallback k =>
    w.callbacks[k]?.map fun c => {w with callbacks := w.callbacks.eraseIdx k}.call c
  | .requestHeader =>
    if w.selected=.profile && !w.covered then
      match UserProfileCollectionViewController.viewForSupplementaryElement w.currentUser with
      | some uid => some {w with fetches := w.fetches++[⟨w.generation,uid⟩]}
      | none => some {w with trapped := true}
    else none
  | .completeFetch k value => w.fetches[k]?.map fun f =>
    {w with
      fetches := w.fetches.eraseIdx k
      profile := Function.update w.profile f.generation
        ((w.profile f.generation).headerCallback ⟨f.uid,value⟩)}
  | .loadSearch =>
    if w.selected=.search && !w.covered && !w.observers.contains w.generation then
      some {w with observers := w.observers++[w.generation]}
    else none
  | .forcedSignOut => some (w.setUser none)
  | _ => none

def touch (detached : Bool) (w : World) (e : Event) : Option World :=
  match w.presented with
  | .nothing => w.touchTabs e
  | .alert feed => w.touchAlert detached feed e
  | .login ui => w.touchLogin e ui

def step (detached : Bool) (w : World) (e : Event) : Option World :=
  if w.trapped then none else (w.react e).or (w.touch detached e)

end World

def machine (detached : Bool) : Machine World Event := ⟨World.step detached⟩

end ShareImage.Session
