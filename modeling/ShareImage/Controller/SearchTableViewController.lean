import ShareImage.Model.User

namespace ShareImage

structure SearchTableViewController where
  users : List User := []
  deriving DecidableEq

namespace SearchTableViewController

/-- The callback that `fetchUsers` registers for `.childAdded`. -/
def fetchUsers (vc : SearchTableViewController) (snapshot : DataSnapshot) :
    SearchTableViewController :=
  match snapshot.value.asDictionary with
  | none => vc
  | some dictionary => {vc with users := vc.users++[User.init snapshot.key dictionary]}

theorem fetchUsers_users (vc : SearchTableViewController) (snapshot : DataSnapshot) :
    (vc.fetchUsers snapshot).users=vc.users++snapshot.user.toList := by
  unfold fetchUsers DataSnapshot.user
  cases snapshot.value.asDictionary with
  | none => simp
  | some dictionary => simp

/-- Whether that callback gets as far as `reloadData`. -/
def reloadsData (snapshot : DataSnapshot) : Bool :=
  match snapshot.value.asDictionary with
  | none => false
  | some _ => true

def numberOfRowsInSection (vc : SearchTableViewController) : Nat := vc.users.length

/-- `tableView(_:cellForRowAt:)`: the user for the cell, or nil where `users[indexPath.row]`
traps. -/
def cellForRow (vc : SearchTableViewController) (row : Nat) : Option User := do
  let user ← vc.users[row]?
  return user

/-- `tableView(_:didSelectRowAt:)`: the name it prints, or nil where it traps. -/
def didSelectRow (vc : SearchTableViewController) (row : Nat) : Option (Option String) := do
  let user ← vc.users[row]?
  return user.username

theorem reloadsData_eq (snapshot : DataSnapshot) :
    reloadsData snapshot=snapshot.user.isSome := by
  unfold reloadsData DataSnapshot.user
  cases snapshot.value.asDictionary <;> rfl

theorem cellForRow_eq (vc : SearchTableViewController) (row : Nat) :
    vc.cellForRow row=vc.users[row]? := by
  unfold cellForRow
  cases vc.users[row]? <;> rfl

end SearchTableViewController

end ShareImage
