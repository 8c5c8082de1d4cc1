import ShareImage.Model.User

namespace ShareImage

/-- The texts of the cell's labels; `init` sets the first ones. -/
structure SearchUserCell where
  textLabel : Option String := some "Username"
  detailTextLabel : Option String := some "Full name"
  deriving DecidableEq

namespace SearchUserCell

/-- The `didSet` of `user`, with the string that it passes to `profileImageView.loadImage(with:)`
if it gets that far. -/
def didSet (cell : SearchUserCell) (user : Option User) : SearchUserCell × Option String :=
  match user.bind User.profileImageUrl with
  | none => (cell,none)
  | some profileImageUrl =>
    match user.bind User.username with
    | none => (cell,none)
    | some username =>
      match user.bind User.name with
      | none => (cell,none)
      | some fullname =>
        ({textLabel := some username,detailTextLabel := some fullname},some profileImageUrl)

end SearchUserCell

/-- All that a cell shows is there. -/
def User.isComplete (user : User) : Bool :=
  user.profileImageUrl.isSome && user.username.isSome && user.name.isSome

namespace SearchUserCell

theorem didSet_complete (cell : SearchUserCell) (user : User) (h : user.isComplete=true) :
    cell.didSet (some user)=(⟨user.username,user.name⟩,user.profileImageUrl) := by
  obtain ⟨username,name,profileImageUrl,uid⟩ := user
  cases profileImageUrl with
  | none => contradiction
  | some url =>
    cases username with
    | none => contradiction
    | some username =>
      cases name with
      | none => contradiction
      | some name => rfl

/-- A user with a field missing leaves the cell as it is. -/
theorem didSet_incomplete (cell : SearchUserCell) (user : User) (h : user.isComplete=false) :
    cell.didSet (some user)=(cell,none) := by
  obtain ⟨username,name,profileImageUrl,uid⟩ := user
  cases profileImageUrl with
  | none => rfl
  | some url =>
    cases username with
    | none => rfl
    | some username =>
      cases name with
      | none => rfl
      | some name => contradiction

end SearchUserCell

end ShareImage
