import ShareImage.App.Listing
import ShareImage.Device.World
import ShareImage.Session.Profile

namespace ShareImage.Device

open Framework

section Step

variable {p : Platform} {detached : Bool} {w v : World} {e : Event}

theorem step_app (h : w.step p detached e=some v) :
    (App.machine p).run w.app (w.appEvents e)=some v.app := by
  unfold World.step at h
  split at h
  · rename_i e
    obtain ⟨app,happ,rfl⟩ := Option.map_eq_some_iff.mp h
    simp [World.appEvents,Machine.run_cons,App.machine,happ]
  · contradiction
  · obtain ⟨session,_,rfl⟩ := Option.map_eq_some_iff.mp h
    rfl
  · simp only [Option.bind_eq_bind,Option.bind_eq_some_iff] at h
    obtain ⟨f,_,session,_,hv⟩ := h
    cases hv
    rfl

theorem step_session (h : w.step p detached e=some v) :
    (Session.machine detached).run w.session (w.sessionEvents e)=some v.session := by
  unfold World.step at h
  split at h
  · obtain ⟨app,_,rfl⟩ := Option.map_eq_some_iff.mp h
    rfl
  · contradiction
  · obtain ⟨session,hsession,rfl⟩ := Option.map_eq_some_iff.mp h
    simp [World.sessionEvents,Machine.run_cons,Session.machine,hsession]
  · simp only [Option.bind_eq_bind,Option.bind_eq_some_iff] at h
    obtain ⟨f,hf,session,hsession,hv⟩ := h
    cases hv
    simp [World.sessionEvents,Machine.run_cons,Session.machine,hf,hsession]

/-- A header is new only when the client's value at the uid of its user comes in. -/
theorem step_header (h : w.step p detached e=some v) (n : Nat) (user : User)
    (hn : (v.session.profile n).header=some user) :
    (w.session.profile n).header=some user ∨
    DataSnapshot.user ⟨user.uid,w.value user.uid⟩=some user := by
  unfold World.step at h
  split at h
  · obtain ⟨app,_,rfl⟩ := Option.map_eq_some_iff.mp h
    exact .inl hn
  · contradiction
  · rename_i e hno
    obtain ⟨session,hsession,rfl⟩ := Option.map_eq_some_iff.mp h
    rcases Session.step_header detached _ _ e hsession n user hn with hold | ⟨k,value,rfl,_⟩
    · exact .inl hold
    · exact absurd rfl (hno k value)
  · rename_i k
    simp only [Option.bind_eq_bind,Option.bind_eq_some_iff] at h
    obtain ⟨f,hf,session,hsession,hv⟩ := h
    cases hv
    rcases Session.step_header detached _ _ _ hsession n user hn with hold | ⟨j,value,he,hj,hread⟩
    · exact .inl hold
    · obtain ⟨rfl,hvalue⟩ := Session.Event.completeFetch.inj he
      have hsame : f=⟨n,user.uid⟩ := Option.some.inj (hf.symm.trans hj)
      rw [hsame] at hvalue
      exact .inr (hvalue ▸ hread)

end Step

section Run

variable (p : Platform) (detached : Bool) (w v : World) (es : List Event)
variable (h : (machine p detached).run w es=some v)
include h

theorem run_app : (App.machine p).run w.app ((machine p detached).log World.appEvents w es)=
    some v.app :=
  (machine p detached).run_simulates (App.machine p) World.app World.appEvents
    (fun _ _ _ hstep => step_app hstep) w v es h

theorem run_session : (Session.machine detached).run w.session
    ((machine p detached).log World.sessionEvents w es)=some v.session :=
  (machine p detached).run_simulates (Session.machine detached) World.session World.sessionEvents
    (fun _ _ _ hstep => step_session hstep) w v es h

/-- The reports that reach the client are among the events. -/
theorem log_reports (x : Write String AnyObject)
    (hx : App.Event.report x∈(machine p detached).log World.appEvents w es) :
    Event.app (.report x)∈es := by
  obtain ⟨pre,e,post,u,_,hes,_,_,_,hout⟩ := (machine p detached).mem_log _ w v es h _ hx
  cases e with
  | app e => simp [hes,List.mem_singleton.mp hout]
  | session | fetched => contradiction

end Run

theorem run_readFrom (p : Platform) (detached : Bool) (s w : World) (es : List Event)
    (h : (machine p detached).run s es=some w) (n : Nat) (user : User)
    (hs : (s.session.profile n).header=none) (hn : (w.session.profile n).header=some user) :
    ∃pre post u,es=pre++post ∧ (machine p detached).run s pre=some u ∧
      (machine p detached).run u post=some w ∧
      DataSnapshot.user ⟨user.uid,u.value user.uid⟩=some user := by
  have hstart : ¬(s.session.profile n).header=some user := by
    rw [hs]
    simp
  obtain ⟨pre,e,post,u,v,hes,hpre,hstep,hpost,hno,hv⟩ := (machine p detached).run_first
    (fun w => (w.session.profile n).header=some user) s w es hstart h hn
  have hread := (step_header hstep n user hv).resolve_left hno
  have hrest : (machine p detached).run u (e::post)=some w := by
    rw [Machine.run_cons]
    change (u.step p detached e).bind _=_
    rw [show u.step p detached e=some v from hstep]
    exact hpost
  exact ⟨pre,e::post,u,hes,hpre,hrest,hread⟩

/-- The profile shows what the form said. Where no other client writes at the uid of an account made
by a sign-up, and the database does not refuse its record, a profile screen that shows a user with
that uid shows the names of the form, as title and as label, and loads the URL that the photo of the
sign-up is stored at. -/
theorem profile_shows_sign_up (p : Platform) (detached : Bool)
    (children : AList fun _ : String => AnyObject) (currentUser : Option String) (es : List Event)
    (w : World) (r : SignUps.Record) (n : Nat) (user : User)
    (h : (machine p detached).run (World.launch p children currentUser) es=some w)
    (hr : r∈w.app.signUps.services.writes) (haccepted : r∉w.app.signUps.rejected)
    (hchildren : children.lookup r.uid=none)
    (hreports : ∀x,Event.app (.report x)∈es → x.key≠r.uid)
    (hheader : (w.session.profile n).header=some user) (huid : user.uid=r.uid) :
    ∃f url,w.app.signUps.flows[r.flow]?=some f ∧
      w.app.signUps.services.object f.captured.storageRef=some (f.captured.stored r.flow url) ∧
      (w.session.profile n).title=some f.captured.username ∧
      ∀header : UserProfileHeader,header.didSet (some user)=
        (⟨some f.captured.fullName⟩,some url.absoluteString) := by
  have happ := run_app p detached _ w es h
  have hw : App.Coherent p w.app := App.run_coherent p children _ w.app happ
  obtain ⟨f,url,hf,hobject,hinit⟩ := hw.signUps.record_user r hr
  obtain ⟨pre,post,u,hes,hpre,hpost,hread⟩ := run_readFrom p detached _ w es h n user rfl hheader
  have happu := run_app p detached _ u pre hpre
  have hrest := run_app p detached u w post hpost
  -- what the client has read at the uid is the record, already then
  have hkept : ¬u.app.signUps.Refused r.uid := by
    intro hrefused
    have hlater := App.run_refused p u.app w.app _ r.uid hrest hrefused
    exact App.not_refused p children _ w.app r happ hr haccepted hlater
  have hholds : App.Holds r.uid u.app := by
    apply App.run_holds p children r.uid hchildren _ u.app happu hkept
    intro x hx
    have hmem := log_reports p detached _ u pre hpre x hx
    exact hreports x (hes ▸ List.mem_append_left _ hmem)
  have hvalue : u.value r.uid=.dictionary r.values := by
    have hget : u.app.table.search.node.get r.uid=u.app.signUps.written r.uid := hholds
    have hsome : ∃value,u.app.signUps.written r.uid=some value := by
      rw [huid,World.value,hget] at hread
      cases hwritten : u.app.signUps.written r.uid with
      | some value => exact ⟨value,rfl⟩
      | none =>
        rw [hwritten] at hread
        contradiction
    obtain ⟨value,hwritten⟩ := hsome
    obtain ⟨x,hx,hxr,hxvalue⟩ := SignUps.mem_of_written u.app.signUps r.uid value hwritten
    have hlater : x∈w.app.signUps.services.writes :=
      (SignUps.run_before p _ _ _ (App.run_signUps p u.app w.app _ hrest)).writes.subset hx
    have hsame : x=r := List.inj_on_of_nodup_map hw.signUps.writes_uids hlater hr hxr
    rw [World.value,hget,hwritten,←hxvalue,hsame]
    rfl
  have huser : user=f.captured.user r.uid url := by
    rw [huid,hvalue] at hread
    rw [←hinit]
    exact (Option.some.inj hread).symm
  have hsession := run_session p detached _ w es h
  have htitle := (Session.run_shows detached currentUser _ w.session hsession).titled n
  refine ⟨f,url,hf,hobject,?_,?_⟩
  · have htitled : (w.session.profile n).title=
        (w.session.profile n).header.bind User.username := htitle
    rw [htitled,hheader,huser]
    rfl
  · intro header
    rw [header.didSet_eq,huser]
    rfl

/-- A sign-up, a sign-in as the new user, and a visit of the profile screen. -/
def visited : List Event :=
  [.session .launched,.session .showSignUp,.session .tapSignUp]++
    App.signedUp.map (fun e => .app (.signUp e))++
    [.session (.answer 0 (.ok "uid1")),.session (.runCallback 0),.session .back,
      .session .tapSignIn,.session (.answer 0 (.ok "uid1")),.session (.runCallback 0),
      .session (.select .profile),.session .requestHeader,.fetched 0]

theorem profile_shows_sign_up_visited :
    ∃w r user,(machine .plain false).run (World.launch .plain ∅ none) visited=some w ∧
      w.app.signUps.services.writes=[r] ∧ w.session.presented=.nothing ∧
      (w.session.profile 1).header=some user ∧ user.uid=r.uid ∧
      ∃f : SignUps.Flow,w.app.signUps.flows[r.flow]?=some f ∧
        (w.session.profile 1).title=some f.captured.username := by
  refine ⟨_,_,_,rfl,rfl,rfl,rfl,rfl,?_⟩
  have h := profile_shows_sign_up .plain false ∅ none visited _ _ 1 _ rfl
    (by exact List.mem_singleton.mpr rfl) (by exact List.not_mem_nil) rfl
    (by intro x hx; simp [visited,App.signedUp,SignUps.submission] at hx) rfl rfl
  obtain ⟨f,_,hf,_,htitle,_⟩ := h
  exact ⟨f,hf,htitle⟩

end ShareImage.Device
