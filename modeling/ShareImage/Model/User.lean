import ShareImage.Platform

namespace ShareImage

/-- What a snapshot of the Realtime Database holds at a key. -/
inductive AnyObject where
  | null
  | bool (value : Bool)
  | number (value : ℚ)
  | string (value : String)
  | array (items : List AnyObject)
  | dictionary (entries : List (String × AnyObject))

abbrev Dictionary := List (String × AnyObject)

namespace AnyObject

/-- `as? String`. -/
def asString : AnyObject → Option String
  | .string value => some value
  | _ => none

/-- `as? Dictionary<String, AnyObject>`. -/
def asDictionary : AnyObject → Option Dictionary
  | .dictionary entries => some entries
  | _ => none

mutual

/-- The database has something to store of the value. -/
def hasData : AnyObject → Bool
  | .null => false
  | .bool _ | .number _ | .string _ => true
  | .array items => itemsHaveData items
  | .dictionary entries => entriesHaveData entries

def itemsHaveData : List AnyObject → Bool
  | [] => false
  | item::items => item.hasData || itemsHaveData items

def entriesHaveData : List (String × AnyObject) → Bool
  | [] => false
  | (_,value)::entries => value.hasData || entriesHaveData entries

end

end AnyObject

/-- The entry under `key`, cast to a string. -/
def Dictionary.string (d : Dictionary) (key : String) : Option String :=
  (d.lookup key).bind AnyObject.asString

structure User where
  username : Option String
  name : Option String
  profileImageUrl : Option String
  uid : String
  deriving DecidableEq

/-- `User.init(uid:dictionary:)`; a missing entry, or one that is no string, stays nil. -/
def User.init (uid : String) (dictionary : Dictionary) : User where
  username := dictionary.string "username"
  name := dictionary.string "fullname"
  profileImageUrl := dictionary.string "profileImageUrl"
  uid := uid

/-- `User.init` reads three keys and no other. -/
theorem User.init_congr (uid : String) (d e : Dictionary)
    (h : ∀key∈["username","fullname","profileImageUrl"],d.lookup key=e.lookup key) :
    User.init uid d=User.init uid e := by
  have hu := h "username" (by simp)
  have hn := h "fullname" (by simp)
  have hp := h "profileImageUrl" (by simp)
  simp only [User.init,Dictionary.string,hu,hn,hp]

structure DataSnapshot where
  key : String
  value : AnyObject

/-- What the callbacks of the app make of a snapshot: nothing, if it holds no dictionary. -/
def DataSnapshot.user (snapshot : DataSnapshot) : Option User :=
  snapshot.value.asDictionary.map fun dictionary => User.init snapshot.key dictionary

theorem DataSnapshot.user_uid (snapshot : DataSnapshot) (user : User)
    (h : snapshot.user=some user) : user.uid=snapshot.key := by
  obtain ⟨dictionary,_,huser⟩ := Option.map_eq_some_iff.mp h
  rw [←huser]
  rfl

end ShareImage
