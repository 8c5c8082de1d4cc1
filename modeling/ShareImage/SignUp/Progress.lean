import ShareImage.SignUp.World

namespace ShareImage

namespace SignUp

open SignUps

/-- The account that sign-up number `i` makes. -/
def account (c : SignUp) (i : Nat) (uid : String) : Account := ⟨c.email,c.password,uid,i⟩

def stored (c : SignUp) (i : Nat) (url : URL) : StoredObject :=
  ⟨c.storageRef,c.uploadData,url,i⟩

def record (c : SignUp) (i : Nat) (uid : String) (url : URL) : Record :=
  ⟨uid,c.dictionaryValues url.absoluteString,i⟩

end SignUp

namespace SignUps

open Framework

namespace Services

@[ext] theorem extensionality (s t : Services) (ha : s.auth=t.auth) (ho : s.storage=t.storage)
    (hw : s.writes=t.writes) (hd : s.database=t.database) : s=t := by
  cases s
  cases t
  simp_all

@[simp] theorem append_auth (s t : Services) : (s++t).auth=s.auth++t.auth := rfl

@[simp] theorem append_storage (s t : Services) : (s++t).storage=s.storage++t.storage := rfl

@[simp] theorem append_writes (s t : Services) : (s++t).writes=s.writes++t.writes := rfl

@[simp] theorem append_database (s t : Services) : (s++t).database=s.database++t.database := rfl

@[simp] theorem append_empty (s : Services) : s++({} : Services)=s := by
  ext1 <;> simp

theorem of_append (s t : Services) (i : Nat) : (s++t).of i=s.of i++t.of i := by
  ext1 <;> exact own_append ..

theorem of_ne_empty_of_auth (s : Services) (a : Account) (ha : a∈s.auth) : s.of a.flow≠{} := by
  intro h
  exact own_ne_nil s.auth a ha (congrArg Services.auth h)

theorem of_ne_empty_of_storage (s : Services) (o : StoredObject) (ho : o∈s.storage) :
    s.of o.flow≠{} := by
  intro h
  exact own_ne_nil s.storage o ho (congrArg Services.storage h)

theorem of_ne_empty_of_writes (s : Services) (r : Record) (hr : r∈s.writes) :
    s.of r.flow≠{} := by
  intro h
  exact own_ne_nil s.writes r hr (congrArg Services.writes h)

theorem of_ne_empty_of_database (s : Services) (r : Record) (hr : r∈s.database) :
    s.of r.flow≠{} := by
  intro h
  exact own_ne_nil s.database r hr (congrArg Services.database h)

/-- All effects are those of sign-up `i`. -/
structure OwnedBy (i : Nat) (s : Services) : Prop where
  auth : ∀a∈s.auth,a.flow=i
  storage : ∀o∈s.storage,o.flow=i
  writes : ∀r∈s.writes,r.flow=i
  database : ∀r∈s.database,r.flow=i

theorem of_self (i : Nat) (s : Services) (h : OwnedBy i s) : s.of i=s := by
  ext1
  · exact own_self i s.auth h.auth
  · exact own_self i s.storage h.storage
  · exact own_self i s.writes h.writes
  · exact own_self i s.database h.database

theorem of_other (i j : Nat) (hij : i≠j) (s : Services) (h : OwnedBy i s) : s.of j={} := by
  ext1
  · exact own_other j s.auth fun a ha hj => hij ((h.auth a ha).symm.trans hj)
  · exact own_other j s.storage fun o ho hj => hij ((h.storage o ho).symm.trans hj)
  · exact own_other j s.writes fun r hr hj => hij ((h.writes r hr).symm.trans hj)
  · exact own_other j s.database fun r hr hj => hij ((h.database r hr).symm.trans hj)

end Services

/-- Where sign-up `i` with captured values `c` can stand, with all the effects it has had. Only
where answers may be lost is an effect there that was reported as failed. -/
inductive Reached (lossy : Bool) (i : Nat) (c : SignUp) : Stage → Bool → Services → Prop
  | creating : Reached lossy i c (.createUser none) false {}
  | refused (error finished) : Reached lossy i c (.createUser (some ⟨none,some error⟩)) finished {}
  | created (uid) : Reached lossy i c (.createUser (some ⟨some uid,none⟩)) false
      {auth := [c.account i uid]}
  | uploading (uid) : Reached lossy i c (.putData (some uid) none) false
      {auth := [c.account i uid]}
  | unstored (uid error finished) :
      Reached lossy i c (.putData (some uid) (some ⟨none,some error⟩)) finished
      {auth := [c.account i uid]}
  | stored (uid url) : Reached lossy i c (.putData (some uid) (some ⟨some (),none⟩)) false
      {auth := [c.account i uid],storage := [c.stored i url]}
  | resolving (uid url) : Reached lossy i c (.downloadURL (some uid) none) false
      {auth := [c.account i uid],storage := [c.stored i url]}
  | unresolved (uid url error finished) :
      Reached lossy i c (.downloadURL (some uid) (some ⟨none,error⟩)) finished
      {auth := [c.account i uid],storage := [c.stored i url]}
  | resolved (uid url) : Reached lossy i c (.downloadURL (some uid) (some ⟨some url,none⟩)) false
      {auth := [c.account i uid],storage := [c.stored i url]}
  | saving (uid) (url : URL) :
      Reached lossy i c (.updateChildValues uid (c.dictionaryValues url.absoluteString) none) false
      {auth := [c.account i uid],storage := [c.stored i url],writes := [c.record i uid url]}
  | unsaved (uid) (url : URL) (error finished) :
      Reached lossy i c (.updateChildValues uid (c.dictionaryValues url.absoluteString)
        (some ⟨none,some error⟩)) finished
      {auth := [c.account i uid],storage := [c.stored i url],writes := [c.record i uid url]}
  | saved (uid) (url : URL) (finished) :
      Reached lossy i c (.updateChildValues uid (c.dictionaryValues url.absoluteString)
        (some ⟨some (),none⟩)) finished
      {auth := [c.account i uid],storage := [c.stored i url],writes := [c.record i uid url],
        database := [c.record i uid url]}
  | createdUnseen (uid error finished) (h : lossy=true) :
      Reached lossy i c (.createUser (some ⟨none,some error⟩)) finished {auth := [c.account i uid]}
  | storedUnseen (uid url error finished) (h : lossy=true) :
      Reached lossy i c (.putData (some uid) (some ⟨none,some error⟩)) finished
      {auth := [c.account i uid],storage := [c.stored i url]}
  | savedUnseen (uid) (url : URL) (error finished) (h : lossy=true) :
      Reached lossy i c (.updateChildValues uid (c.dictionaryValues url.absoluteString)
        (some ⟨none,some error⟩)) finished
      {auth := [c.account i uid],storage := [c.stored i url],writes := [c.record i uid url],
        database := [c.record i uid url]}

namespace Reached

variable {lossy : Bool} {i : Nat} {c : SignUp} {stage : Stage} {finished : Bool} {s : Services}

theorem lengths (h : Reached lossy i c stage finished s) : s.auth.length≤1 ∧ s.storage.length≤1 ∧
    s.writes.length≤1 ∧ s.database.length≤1 := by
  cases h <;> simp

theorem auth (h : Reached lossy i c stage finished s) (a : Account) (ha : a∈s.auth) :
    ∃uid,a=c.account i uid := by
  cases h <;> simp at ha <;> exact ⟨_,ha⟩

/-- A sign-up has no effect without its account. -/
theorem account (h : Reached lossy i c stage finished s) (hs : s≠{}) : s.auth≠[] := by
  cases h <;> simp at hs ⊢

/-- An image stands only with the account. -/
theorem storage (h : Reached lossy i c stage finished s) (o : StoredObject) (ho : o∈s.storage) :
    ∃uid url,o=c.stored i url ∧ s.auth=[c.account i uid] := by
  cases h <;> simp at ho <;> exact ⟨_,_,ho,rfl⟩

/-- A record is passed on only with the account and the image, whose URL it names. -/
theorem writes (h : Reached lossy i c stage finished s) (r : Record) (hr : r∈s.writes) :
    ∃uid url,r=c.record i uid url ∧ s.auth=[c.account i uid] ∧ s.storage=[c.stored i url] := by
  cases h <;> simp at hr <;> exact ⟨_,_,hr,rfl,rfl⟩

theorem database (h : Reached lossy i c stage finished s) (r : Record) (hr : r∈s.database) :
    r∈s.writes := by
  cases h <;> simp at hr ⊢ <;> exact hr

end Reached

def Flow.Reached (lossy : Bool) (i : Nat) (f : Flow) (s : Services) : Prop :=
  SignUps.Reached lossy i f.captured f.stage f.finished s

/-- The effects of a step of sign-up `i` are its own, and take it from one place it can stand
to another. -/
structure Advances (lossy : Bool) (i : Nat) (f : Flow) (before : Services)
    (next : Flow × Services) : Prop where
  captured : next.1.captured=f.captured
  owned : next.2.OwnedBy i
  reached : next.1.Reached lossy i (before++next.2)

theorem advances_quietly (lossy : Bool) (i : Nat) (f g : Flow) (before : Services)
    (hc : g.captured=f.captured) (hr : g.Reached lossy i before) :
    Advances lossy i f before (g,{}) where
  captured := hc
  owned := ⟨by simp,by simp,by simp,by simp⟩
  reached := by simpa using hr

theorem answer_advances (lossy : Bool) (s : Services) (i : Nat) (f : Flow) (outcome : Outcome)
    (next : Flow × Services) (hlossy : outcome.isLost=true → lossy=true)
    (hr : f.Reached lossy i (s.of i))
    (hown : ∀o,s.object f.captured.storageRef=some o → o∈(s.of i).storage)
    (h : f.answer s i outcome=some next) : Advances lossy i f (s.of i) next := by
  obtain ⟨c,stage,finished⟩ := f
  simp only [Flow.Reached] at hr
  generalize s.of i=before at hr hown ⊢
  cases hr with
  | creating =>
    cases outcome with
    | success uid =>
      simp only [Flow.answer] at h
      split at h
      · contradiction
      · cases h
        exact ⟨rfl,⟨by simp,by simp,by simp,by simp⟩,.created uid⟩
    | failure error => cases h; exact advances_quietly lossy i _ _ _ rfl (.refused error false)
    | nilURL => contradiction
    | lost uid error =>
      simp only [Flow.answer] at h
      split at h
      · contradiction
      · cases h
        exact ⟨rfl,⟨by simp,by simp,by simp,by simp⟩,.createdUnseen uid error false (hlossy rfl)⟩
  | uploading uid =>
    cases outcome with
    | success url => cases h; exact ⟨rfl,⟨by simp,by simp,by simp,by simp⟩,.stored uid ⟨url⟩⟩
    | failure error => cases h; exact advances_quietly lossy i _ _ _ rfl (.unstored uid error false)
    | nilURL => contradiction
    | lost url error =>
      cases h
      exact ⟨rfl,⟨by simp,by simp,by simp,by simp⟩,
        .storedUnseen uid ⟨url⟩ error false (hlossy rfl)⟩
  | resolving uid url =>
    cases outcome with
    | success assigned =>
      -- the object found at the path is the one this sign-up put there, with its URL
      obtain ⟨o,ho,heq⟩ := Option.map_eq_some_iff.mp h
      have hmem := hown o ho
      have hurl : o=c.stored i url := by simpa using hmem
      subst heq hurl
      exact advances_quietly lossy i _ _ _ rfl (.resolved uid url)
    | failure error =>
      cases h
      exact advances_quietly lossy i _ _ _ rfl (.unresolved uid url (some error) false)
    | nilURL => cases h; exact advances_quietly lossy i _ _ _ rfl (.unresolved uid url none false)
    | lost => contradiction
  | saving uid url =>
    cases outcome with
    | success assigned =>
      cases h
      exact ⟨rfl,⟨by simp,by simp,by simp,by simp⟩,.saved uid url false⟩
    | failure error =>
      cases h
      exact advances_quietly lossy i _ _ _ rfl (.unsaved uid url error false)
    | nilURL => contradiction
    | lost assigned error =>
      cases h
      exact ⟨rfl,⟨by simp,by simp,by simp,by simp⟩,.savedUnseen uid url error false (hlossy rfl)⟩
  | refused | created | unstored | stored | unresolved | resolved | unsaved | saved |
      createdUnseen | storedUnseen | savedUnseen =>
    contradiction

/-- Auth takes in an account only with a new email and a new uid. -/
theorem answer_auth (s : Services) (i : Nat) (f : Flow) (outcome : Outcome)
    (next : Flow × Services) (h : f.answer s i outcome=some next) :
    next.2.auth=[] ∨ ∃uid,next.2.auth=[f.captured.account i uid] ∧
      ∀a∈s.auth,a.email≠f.captured.email ∧ a.uid≠uid := by
  unfold Flow.answer at h
  split at h
  case h_5 =>
    obtain ⟨o,_,heq⟩ := Option.map_eq_some_iff.mp h
    exact .inl (heq ▸ rfl)
  case h_1 uid _ | h_10 uid error _ =>
    split at h
    · contradiction
    · rename_i hnew
      cases h
      refine .inr ⟨uid,rfl,?_⟩
      intro a ha
      simp only [List.any_eq_true,Bool.or_eq_true,beq_iff_eq,not_exists,not_and,not_or] at hnew
      exact hnew a ha
  case h_13 => contradiction
  all_goals
    cases h
    exact .inl rfl

theorem complete_advances (lossy : Bool) (i : Nat) (f : Flow) (before : Services)
    (next : Flow × Services) (hr : f.Reached lossy i before) (h : f.complete i=some next) :
    Advances lossy i f before next := by
  obtain ⟨c,stage,finished⟩ := f
  cases finished with
  | true => contradiction
  | false =>
    simp only [Flow.Reached] at hr
    cases hr with
    | refused error => cases h; exact advances_quietly lossy i _ _ _ rfl (.refused error true)
    | created uid => cases h; exact advances_quietly lossy i _ _ _ rfl (.uploading uid)
    | unstored uid error =>
      cases h
      exact advances_quietly lossy i _ _ _ rfl (.unstored uid error true)
    | stored uid url => cases h; exact advances_quietly lossy i _ _ _ rfl (.resolving uid url)
    | unresolved uid url error =>
      cases h
      exact advances_quietly lossy i _ _ _ rfl (.unresolved uid url error true)
    | resolved uid url =>
      cases h
      exact ⟨rfl,⟨by simp,by simp,by simp,by simp⟩,.saving uid url⟩
    | unsaved uid url error =>
      cases h
      exact advances_quietly lossy i _ _ _ rfl (.unsaved uid url error true)
    | saved uid url => cases h; exact advances_quietly lossy i _ _ _ rfl (.saved uid url true)
    | createdUnseen uid error _ hl =>
      cases h
      exact advances_quietly lossy i _ _ _ rfl (.createdUnseen uid error true hl)
    | storedUnseen uid url error _ hl =>
      cases h
      exact advances_quietly lossy i _ _ _ rfl (.storedUnseen uid url error true hl)
    | savedUnseen uid url error _ hl =>
      cases h
      exact advances_quietly lossy i _ _ _ rfl (.savedUnseen uid url error true hl)
    | creating | uploading | resolving | saving => contradiction

theorem complete_auth (i : Nat) (f : Flow) (next : Flow × Services)
    (h : f.complete i=some next) : next.2.auth=[] := by
  unfold Flow.complete at h
  split at h
  · contradiction
  · split at h
    case h_3 =>
      split at h <;> cases h <;> rfl
    case h_4 => cases h; rfl
    case h_5 => contradiction
    all_goals split at h <;> cases h <;> rfl

end SignUps

end ShareImage
