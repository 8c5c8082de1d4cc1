import ShareImage.Session.Identity

namespace ShareImage.Session

open Framework

/-- A header that the callback leaves is the one before, or that of the snapshot. -/
theorem headerCallback_cases (vc : UserProfileCollectionViewController) (snapshot : DataSnapshot)
    (user : User) (h : (vc.headerCallback snapshot).header=some user) :
    vc.header=some user ∨ snapshot.user=some user := by
  unfold UserProfileCollectionViewController.headerCallback at h
  unfold DataSnapshot.user
  cases hd : snapshot.value.asDictionary with
  | none =>
    rw [hd] at h
    exact .inl h
  | some dictionary =>
    rw [hd] at h
    exact .inr h

/-- A header is new only when a fetch of its user comes in. -/
theorem step_header (detached : Bool) (w v : World) (e : Event) (h : w.step detached e=some v)
    (n : Nat) (user : User) (hn : (v.profile n).header=some user) :
    (w.profile n).header=some user ∨ ∃k value,e=.completeFetch k value ∧
      w.fetches[k]?=some ⟨n,user.uid⟩ ∧ DataSnapshot.user ⟨user.uid,value⟩=some user := by
  cases (step_transition detached w v e h).2 with
  | fetch k f value hk =>
    change (Function.update w.profile f.generation
      ((w.profile f.generation).headerCallback ⟨f.uid,value⟩) n).header=some user at hn
    by_cases hgeneration : n=f.generation
    · subst hgeneration
      rw [Function.update_self] at hn
      rcases headerCallback_cases _ _ user hn with hold | hnew
      · exact .inl hold
      · have huid : user.uid=f.uid := DataSnapshot.user_uid _ user hnew
        rw [huid]
        exact .inr ⟨k,value,rfl,hk,hnew⟩
    · rw [Function.update_of_ne hgeneration] at hn
      exact .inl hn
  | signedIn k login =>
    rw [World.signedIn_eq] at hn
    exact .inl hn
  | header | touch | logout | launched | succeed | fail | idle | trap | load | forcedSignOut =>
    exact .inl hn

section History

variable (detached : Bool)

/-- The profile screen, on display, has built a header and asked for the child of `users` of the
user who was current then. -/
def AskedFor (s : World) (es : List Event) (f : Fetch) : Prop :=
  (machine detached).Happened (fun _ u e => e=.requestHeader ∧ u.generation=f.generation ∧
    u.currentUser=some f.uid ∧ u.selected=.profile ∧ u.covered=false) s es

/-- The database has answered such a fetch with a record that is read as the user. -/
def ReadAs (s : World) (es : List Event) (n : Nat) (user : User) : Prop :=
  (machine detached).Happened (fun pre u e => ∃k value,e=.completeFetch k value ∧
    u.fetches[k]?=some ⟨n,user.uid⟩ ∧ DataSnapshot.user ⟨user.uid,value⟩=some user ∧
    AskedFor detached s pre ⟨n,user.uid⟩) s es

variable (currentUser : Option String) (es : List Event) (w : World)
variable (h : (machine detached).run (World.launch currentUser) es=some w)
include h

theorem run_askedFor (f : Fetch) (hf : f∈w.fetches) :
    AskedFor detached (World.launch currentUser) es f := by
  apply (machine detached).run_happened (fun w f => f∈w.fetches)
    (fun f _ u e => e=.requestHeader ∧ u.generation=f.generation ∧ u.currentUser=some f.uid ∧
      u.selected=.profile ∧ u.covered=false) _ _ _ es w h f hf
  · intro f hf
    contradiction
  · intro es u e v _ hstep f hf
    cases (step_transition detached u v e hstep).2 with
    | header uid hselected hcovered huser =>
      rcases List.mem_append.mp hf with hf | hf
      · exact .inl hf
      · rw [List.mem_singleton.mp hf]
        exact .inr ⟨rfl,rfl,huser,hselected,hcovered⟩
    | fetch k g value => exact .inl (List.mem_of_mem_eraseIdx hf)
    | signedIn k login =>
      rw [World.signedIn_eq] at hf
      exact .inl hf
    | touch | logout | launched | succeed | fail | idle | trap | load | forcedSignOut =>
      exact .inl hf

theorem run_readAs (n : Nat) (user : User) (hn : (w.profile n).header=some user) :
    ReadAs detached (World.launch currentUser) es n user := by
  apply (machine detached).run_happened
    (fun w (x : Nat × User) => (w.profile x.1).header=some x.2)
    (fun x pre u e => ∃k value,e=.completeFetch k value ∧ u.fetches[k]?=some ⟨x.1,x.2.uid⟩ ∧
      DataSnapshot.user ⟨x.2.uid,value⟩=some x.2 ∧
      AskedFor detached (World.launch currentUser) pre ⟨x.1,x.2.uid⟩) _ _ _ es w h (n,user) hn
  · intro x hx
    contradiction
  · rintro es u e v hu hstep ⟨n,user⟩ hn
    rcases step_header detached u v e hstep n user hn with hold | ⟨k,value,he,hk,hread⟩
    · exact .inl hold
    · have hasked := run_askedFor detached currentUser es u hu _ (List.mem_of_getElem? hk)
      exact .inr ⟨k,value,he,hk,hread,hasked⟩

end History

/-- The header of a profile screen, of whichever tab controllers, shows the record of the user who
was current when that screen, on display, asked for it: the record is what the database has answered
to that fetch, read by `User.init`, and the title is its name. -/
theorem header_was_asked_for (detached : Bool) (currentUser : Option String) (es : List Event)
    (w : World) (h : (machine detached).run (World.launch currentUser) es=some w) (n : Nat)
    (user : User) (hheader : (w.profile n).header=some user) :
    ReadAs detached (World.launch currentUser) es n user ∧ (w.profile n).title=user.username := by
  have htitle : (w.profile n).title=(w.profile n).header.bind User.username :=
    (run_shows detached currentUser es w h).titled n
  rw [hheader] at htitle
  exact ⟨run_readAs detached currentUser es w h n user hheader,htitle⟩

/-- The answer to a fetch comes in after another user has signed in: it goes to the profile screen
that is gone. -/
def fetchedLate : List Event :=
  [.select .profile,.requestHeader,.select .feed,.tapLogout,.confirmLogout none,.tapSignIn,
    .answer 0 (.ok "uid2"),.runCallback 0,.completeFetch 0 annRecord]

theorem header_was_asked_for_fetchedLate :
    ∃w user,(machine false).run (World.launch (some "uid1")) fetchedLate=some w ∧
      (w.profile 0).header=some user ∧ (w.profile w.generation).header=none ∧
      ReadAs false (World.launch (some "uid1")) fetchedLate 0 user := by
  refine ⟨_,_,rfl,rfl,rfl,?_⟩
  exact (header_was_asked_for false (some "uid1") fetchedLate _ rfl 0 _ rfl).1

end ShareImage.Session
