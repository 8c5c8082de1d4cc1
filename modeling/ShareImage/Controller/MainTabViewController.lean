import ShareImage.Controller.LoginViewController

namespace ShareImage

/-- The tabs, in the order of `viewControllers`. -/
inductive Tab where
  | feed
  | search
  | uploadPost
  | notification
  | profile
  deriving DecidableEq

/-- Whether `checkInUserIsLoggedIn` posts the block that presents the login controller. -/
def MainTabViewController.checkInUserIsLoggedIn (currentUser : Option String) : Bool :=
  currentUser.isNone

/-- The destructive action of `handleLogout`, on the error that `signOut` throws: whether it goes
on to present a login controller. -/
def FeedCollectionViewController.logoutAction (error : Option String) : Bool :=
  match error with
  | none => true
  | some _ => false

/-- The profile screen with the header it has dequeued. -/
structure UserProfileCollectionViewController where
  title : Option String := none
  header : Option User := none
  deriving DecidableEq

namespace UserProfileCollectionViewController

/-- `collectionView(_:viewForSupplementaryElementOfKind:at:)`: the child of `users` whose value it
asks for, or nil where `currentUid!` traps. -/
def viewForSupplementaryElement (currentUser : Option String) : Option String := do
  let currentUid ← currentUser
  return currentUid

/-- The header is that of the current user, and there is none without one. -/
theorem viewForSupplementaryElement_eq (currentUser : Option String) :
    viewForSupplementaryElement currentUser=currentUser := by
  cases currentUser with
  | none => rfl
  | some uid => rfl

/-- The callback of the header's `observeSingleEvent`. -/
def headerCallback (vc : UserProfileCollectionViewController) (snapshot : DataSnapshot) :
    UserProfileCollectionViewController :=
  match snapshot.value.asDictionary with
  | none => vc
  | some dictionary =>
    let user := User.init snapshot.key dictionary
    {title := user.username,header := some user}

/-- The header's user is that of the snapshot, if it has not stayed as it was. -/
theorem headerCallback_header (vc : UserProfileCollectionViewController)
    (snapshot : DataSnapshot) (user : User) (h : (vc.headerCallback snapshot).header=some user) :
    vc.header=some user ∨ user.uid=snapshot.key := by
  unfold headerCallback at h
  cases hd : snapshot.value.asDictionary with
  | none =>
    rw [hd] at h
    exact .inl h
  | some dictionary =>
    rw [hd] at h
    have huser : User.init snapshot.key dictionary=user := Option.some.inj h
    right
    rw [←huser]
    rfl

/-- The title is the name of the header's user. -/
def Titled (vc : UserProfileCollectionViewController) : Prop :=
  vc.title=vc.header.bind User.username

theorem headerCallback_titled (vc : UserProfileCollectionViewController)
    (snapshot : DataSnapshot) (h : vc.Titled) : (vc.headerCallback snapshot).Titled := by
  unfold headerCallback
  cases snapshot.value.asDictionary with
  | none => exact h
  | some dictionary => rfl

end UserProfileCollectionViewController

end ShareImage
