import ShareImage.Model.User

namespace ShareImage

structure UserProfileHeader where
  nameLabel : Option String := none
  deriving DecidableEq

/-- The `didSet` of `user`, with the string that it passes to `profileImageView.loadImage(with:)`.
The name is set first, also to nil. -/
def UserProfileHeader.didSet (header : UserProfileHeader) (user : Option User) :
    UserProfileHeader × Option String :=
  let fullName := user.bind User.name
  let header := {header with nameLabel := fullName}
  match user.bind User.profileImageUrl with
  | none => (header,none)
  | some profileImageUrl => (header,some profileImageUrl)

theorem UserProfileHeader.didSet_eq (header : UserProfileHeader) (user : User) :
    header.didSet (some user)=(⟨user.name⟩,user.profileImageUrl) := by
  unfold didSet
  cases hurl : user.profileImageUrl with
  | none => simp [hurl]
  | some url => simp [hurl]

end ShareImage
