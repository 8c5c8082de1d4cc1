import ShareImage.App.Pending
import ShareImage.SignUp.Records

namespace ShareImage

namespace SignUps

open Framework

/-- Objects come into Storage only by the requests of `putData` that take effect, each at the URL
assigned to it. -/
theorem step_storage (p : Platform) (w v : World) (e : Event) (h : w.step p e=some v) :
    v.services.storage=w.services.storage ∨
    ∃(i : Nat) (f : Flow) (user : Option String) (url : String) (outcome : Outcome),
      e=.answer i outcome ∧ outcome.assigned=some url ∧
      w.flows[i]?=some f ∧ f.stage=.putData user none ∧ v.services.storage=
        w.services.storage++[⟨f.captured.storageRef,f.captured.uploadData,⟨url⟩,i⟩] := by
  have nothing (i : Nat) (next : Flow × Services) (hnone : next.2.storage=[]) :
      (w.advance i next).services.storage=w.services.storage := by
    change w.services.storage++next.2.storage=w.services.storage
    rw [hnone,List.append_nil]
  rcases step_cases p w v e h with hq | ⟨n,uuid,_,_,_,rfl⟩ |
    ⟨i,f,next,hf,rfl,⟨outcome,rfl,hnext⟩ | ⟨rfl,hnext⟩⟩
  · exact .inl (congrArg Services.storage hq.services)
  · exact .inl rfl
  · unfold Flow.answer at hnext
    split at hnext
    case h_1 | h_10 =>
      split at hnext
      · contradiction
      · cases hnext
        exact .inl (nothing _ _ rfl)
    case h_3 user url hstage | h_11 user url error hstage =>
      cases hnext
      exact .inr ⟨i,f,user,url,_,rfl,rfl,hf,hstage,rfl⟩
    case h_5 =>
      obtain ⟨o,_,hnext⟩ := Option.map_eq_some_iff.mp hnext
      subst hnext
      exact .inl (nothing _ _ rfl)
    case h_13 => contradiction
    all_goals
      cases hnext
      exact .inl (nothing _ _ rfl)
  · unfold Flow.complete at hnext
    left
    split at hnext
    · contradiction
    · split at hnext
      · split at hnext <;> cases hnext <;> exact nothing _ _ rfl
      · split at hnext <;> cases hnext <;> exact nothing _ _ rfl
      · split at hnext <;> cases hnext <;> exact nothing _ _ rfl
      · cases hnext
        exact nothing _ _ rfl
      · contradiction

end SignUps

namespace Table

open Framework

/-- The data that downloads have brought to the cells. -/
def World.responses (w : World) : List Images.Response := w.views.images.responses

theorem setUser_responses (p : Platform) (w : World) (cells : Pool Nat) (cell : Nat)
    (user : User) : (w.setUser p cells cell user).responses=w.responses := by
  change (w.views.setUser p cell user).images.responses=w.views.images.responses
  cases hset : (w.views.view cell).didSet (some user) with
  | mk view profileImageUrl =>
    simp only [Views.World.setUser,hset]
    cases profileImageUrl with
    | none => rfl
    | some s => exact (Images.loadImage_rest p w.views.images cell s).2.1

/-- Only a download that completes with data brings any. -/
theorem step_responses (p : Platform) (w v : World) (e : Event) (h : w.step p e=some v) :
    v.responses=w.responses ∨
    ∃(k : Nat) (d : Data) (error : Option String) (t : Images.Task),
      e=.completeTask k (some d) error ∧ w.views.images.tasks[k]?=some t ∧
      v.responses=w.responses++[⟨t.call,t.url,d⟩] := by
  have images (x : Views.Event) (hx : w.imageStep p x=some v) :
      ∃views,w.views.step p x=some views ∧ v={w with views := views} := by
    obtain ⟨views,hviews,hv⟩ := Option.map_eq_some_iff.mp hx
    exact ⟨views,hviews,hv.symm⟩
  unfold World.step at h
  split at h
  · contradiction
  · cases e with
    | completeTask k data error =>
      obtain ⟨views,hviews,rfl⟩ := images (.completeTask k data error) h
      obtain ⟨images,himages,rfl⟩ := Option.map_eq_some_iff.mp hviews
      obtain ⟨t,ht,rfl⟩ := Option.map_eq_some_iff.mp himages
      cases data with
      | none => exact .inl (List.append_nil _)
      | some d => exact .inr ⟨k,d,error,t,rfl,ht,rfl⟩
    | runPosted k =>
      obtain ⟨views,hviews,rfl⟩ := images (.runPosted k) h
      obtain ⟨images,himages,rfl⟩ := Option.map_eq_some_iff.mp hviews
      obtain ⟨a,_,rfl⟩ := Option.map_eq_some_iff.mp himages
      exact .inl rfl
    | search e =>
      obtain ⟨search,_,rfl⟩ := Option.map_eq_some_iff.mp h
      exact .inl rfl
    | reload =>
      cases h
      exact .inl rfl
    | cellForRow row position =>
      simp only [World.react] at h
      split at h
      · obtain ⟨⟨cells,cell⟩,_,rfl⟩ := Option.map_eq_some_iff.mp h
        left
        cases w.search.controller.cellForRow row with
        | none => rfl
        | some user => exact setUser_responses p w cells cell user
      · contradiction
    | endDisplaying row =>
      simp only [World.react] at h
      split at h
      · cases h
        exact .inl rfl
      · contradiction
    | didSelectRow row =>
      simp only [World.react] at h
      split at h
      · split at h
        · cases h
          exact .inl rfl
        · cases h
          exact .inl rfl
      · contradiction

end Table

namespace App

open Framework

/-- The response brings the object, if it is the object's URL that has been loaded. -/
def Brings (o : SignUps.StoredObject) (r : Images.Response) : Prop := r.url=o.url → r.data=o.data

/-- What holds of the URLs of Storage: each denotes itself, and serves its object. -/
structure Served (p : Platform) (w : World) : Prop where
  denotes : ∀o∈w.signUps.services.storage,p.parse o.url.absoluteString=some o.url
  brings : ∀o∈w.signUps.services.storage,∀r∈w.table.responses,Brings o r

theorem launch_served (p : Platform) (children : AList fun _ : String => AnyObject) :
    Served p (World.launch p children) where
  denotes := by
    intro o ho
    contradiction
  brings := by
    intro o ho
    contradiction

theorem step_responses (p : Platform) (w v : World) (e : Event) (h : w.step p e=some v) :
    v.table.responses=w.table.responses ∨
    ∃(k : Nat) (d : Data) (error : Option String) (t : Images.Task),
      e=.table (.completeTask k (some d) error) ∧ w.table.views.images.tasks[k]?=some t ∧
      v.table.responses=w.table.responses++[⟨t.call,t.url,d⟩] := by
  obtain ⟨_,_,ht⟩ := step_components p w v e h
  have quiet (hquiet : ∀x∈w.tableEvents e,∃s,x=Table.Event.search s) :
      v.table.responses=w.table.responses := by
    apply (Table.machine p).run_invariant_of_mem (fun t => t.responses=w.table.responses) w.table
      v.table _ _ rfl ht
    intro t x u hx hsame hstep
    obtain ⟨s,rfl⟩ := hquiet x hx
    rcases Table.step_responses p t u _ hstep with hr | ⟨_,_,_,_,hcomplete,_⟩
    · exact hr.trans hsame
    · contradiction
  cases e with
  | signUp e =>
    left
    apply quiet
    intro x hx
    obtain ⟨c,_,rfl⟩ := List.mem_map.mp hx
    exact ⟨_,rfl⟩
  | report x =>
    left
    apply quiet
    intro y hy
    exact ⟨_,List.mem_singleton.mp hy⟩
  | table e =>
    simp only [World.tableEvents,Machine.run_singleton] at ht
    rcases Table.step_responses p w.table v.table e ht with hr | ⟨k,d,error,t,rfl,htask,hr⟩
    · exact .inl hr
    · exact .inr ⟨k,d,error,t,rfl,htask,hr⟩

theorem step_storage (p : Platform) (w v : World) (e : Event) (h : w.step p e=some v) :
    v.signUps.services.storage=w.signUps.services.storage ∨
    ∃(i : Nat) (f : SignUps.Flow) (url : String) (outcome : SignUps.Outcome),
      e=.signUp (.answer i outcome) ∧ w.issues p url=true ∧
      v.signUps.services.storage=w.signUps.services.storage++
        [⟨f.captured.storageRef,f.captured.uploadData,⟨url⟩,i⟩] := by
  obtain ⟨hallowed,_,_⟩ := step_components p w v e h
  cases e with
  | signUp e =>
    have hs := step_signUps p w v e h
    rcases SignUps.step_storage p w.signUps v.signUps e hs with hsame |
      ⟨i,f,user,url,outcome,rfl,hassigned,hf,hstage,hstorage⟩
    · exact .inl hsame
    · have hissues : w.issues p url=true := by
        cases outcome with
        | success assigned | lost assigned error =>
          cases hassigned
          simpa [World.allowed,hf,hstage] using hallowed
        | failure | nilURL => contradiction
      exact .inr ⟨i,f,url,outcome,rfl,hissues,hstorage⟩
  | report x =>
    cases step_node p w v _ h with
    | report _ hs => exact .inl (by rw [hs])
  | table e =>
    cases step_node p w v _ h with
    | table _ hs => exact .inl (by rw [hs])

theorem step_served (p : Platform) (w v : World) (e : Event) (hw : Served p w)
    (h : w.step p e=some v) : Served p v := by
  rcases step_storage p w v e h with hstorage | ⟨i,f,url,outcome,rfl,hissues,hstorage⟩
  · refine ⟨hstorage ▸ hw.denotes,?_⟩
    rw [hstorage]
    rcases step_responses p w v e h with hr | ⟨k,d,error,t,rfl,htask,hr⟩
    · rw [hr]
      exact hw.brings
    · obtain ⟨hallowed,_,_⟩ := step_components p w v _ h
      intro o ho r hmem
      rw [hr] at hmem
      rcases List.mem_append.mp hmem with hold | hnew
      · exact hw.brings o ho r hold
      · have hserves : w.serves k (some d)=true := hallowed
        have hobjects : ∀o∈w.signUps.services.storage,¬o.url=t.url ∨ o.data=d := by
          simpa [World.serves,htask] using hserves
        rw [List.mem_singleton.mp hnew]
        intro hurl
        exact ((hobjects o ho).resolve_left fun hother => hother hurl.symm).symm
  · -- nobody has loaded the URL before it is given out
    have hquiet : v.table.responses=w.table.responses := by
      rcases step_responses p w v _ h with hr | ⟨_,_,_,_,hcomplete,_⟩
      · exact hr
      · contradiction
    obtain ⟨⟨hparse,_⟩,hfresh⟩ : (p.parse url=some ⟨url⟩ ∧
        ∀o∈w.signUps.services.storage,o.url≠⟨url⟩) ∧ ∀r∈w.table.responses,r.url≠⟨url⟩ := by
      simpa [World.issues,Table.World.responses] using hissues
    constructor
    · intro o ho
      rw [hstorage] at ho
      rcases List.mem_append.mp ho with hold | hnew
      · exact hw.denotes o hold
      · rw [List.mem_singleton.mp hnew]
        exact hparse
    · intro o ho r hr
      rw [hstorage] at ho
      rw [hquiet] at hr
      rcases List.mem_append.mp ho with hold | hnew
      · exact hw.brings o hold r hr
      · rw [List.mem_singleton.mp hnew]
        intro hurl
        exact absurd hurl (hfresh r hr)

theorem run_served (p : Platform) (children : AList fun _ : String => AnyObject)
    (es : List Event) (w : World) (h : (machine p).run (World.launch p children) es=some w) :
    Served p w :=
  (machine p).run_invariant (Served p) (fun w e v => step_served p w v e) _ w es
    (launch_served p children) h

/-- The sign-up events among the events. -/
def signUpsOf (es : List Event) : List SignUps.Event :=
  es.filterMap fun
    | .signUp e => some e
    | _ => none

theorem log_signUps (p : Platform) (s w : World) (es : List Event)
    (h : (machine p).run s es=some w) : (machine p).log World.signUpEvents s es=signUpsOf es := by
  induction es generalizing s with
  | nil => rfl
  | cons e es ih =>
    obtain ⟨u,hu,hrun⟩ := (machine p).run_cons_split s w e es h
    simp only [Machine.log,hu,ih u hrun]
    cases e <;> rfl

/-- The object is the JPEG of the photo last picked on the screen of the tap it goes back to. -/
def PickedPhoto (p : Platform) (es : List Event) (o : SignUps.StoredObject) : Prop :=
  ∃pre n uuid post image,es=pre++.signUp (.tapSignUp n uuid)::post ∧
    o.path=["profile_images",uuid] ∧ SignUps.lastPicked n (signUpsOf pre)=some image ∧
    p.jpegData image (3/10)=some o.data

theorem object_picked (p : Platform) (children : AList fun _ : String => AnyObject)
    (es : List Event) (w : World) (o : SignUps.StoredObject)
    (h : (machine p).run (World.launch p children) es=some w)
    (ho : o∈w.signUps.services.storage) : PickedPhoto p es o := by
  have hs := run_signUps p _ w es h
  rw [log_signUps p _ w es h] at hs
  obtain ⟨f,_,url,hf,heq,_⟩ := (run_coherent p children es w h).signUps.storage o ho
  obtain ⟨pre,n,uuid,post,v,hes,hpre,_,henabled,hc⟩ := SignUps.flow_tapped p _ _ o.flow f hs hf
  obtain ⟨_,image,_,_,_,_,⟨hpicked,hdata⟩,huuid⟩ := SignUps.handleSignUp_of_enabled p _
    (v.signUp n) (SignUps.run_fits p pre v hpre n) uuid f.captured henabled hc
  obtain ⟨before,rest,hes',hbefore,hrest⟩ := List.filterMap_eq_append_iff.mp hes
  obtain ⟨skipped,e,after,hsplit,hskipped,he,_⟩ := List.filterMap_eq_cons_iff.mp hrest
  have htap : e=.signUp (.tapSignUp n uuid) := by
    cases e with
    | signUp x => exact congrArg Event.signUp (Option.some.inj he)
    | report | table => contradiction
  refine ⟨before++skipped,n,uuid,after,image,?_,?_,?_,?_⟩
  · rw [hes',hsplit,htap,List.append_assoc]
  · rw [heq,←huuid]
    rfl
  · have hnone : signUpsOf skipped=[] := List.filterMap_eq_nil_iff.mpr hskipped
    have hsame : signUpsOf (before++skipped)=pre := by
      rw [signUpsOf,List.filterMap_append]
      change _++signUpsOf skipped=_
      rw [hnone,List.append_nil]
      exact hbefore
    rw [hsame]
    exact hpicked
  · rw [hdata,heq]
    rfl

/-- A photo makes the whole way. What a cell shows comes from a response to the URL of a user in the
list. If a sign-up has put an object at that URL, the image is decoded from the JPEG of the photo
that was last picked on the screen of the tap that started the sign-up; and so is what the cache has
for that URL. -/
theorem shown_photo_was_picked (p : Platform) (children : AList fun _ : String => AnyObject)
    (es : List Event) (w : World) (h : (machine p).run (World.launch p children) es=some w) :
    (∀cell image,w.table.views.images.image cell=some image →
      ∃user∈w.table.users,user.isComplete=true ∧ ∃s,user.profileImageUrl=some s ∧
        w.table.views.images.Own p s (some image) ∧
        ∀o∈w.signUps.services.storage,o.url.absoluteString=s →
          p.image o.data=some image ∧ PickedPhoto p es o) ∧
    ∀o∈w.signUps.services.storage,PickedPhoto p es o ∧
      ∀image,w.table.views.images.cached p o.url.absoluteString=some image →
        p.image o.data=some image := by
  have hw : Coherent p w := run_coherent p children es w h
  have hserved : Served p w := run_served p children es w h
  have own (o : SignUps.StoredObject) (ho : o∈w.signUps.services.storage) (image : UIImage)
      (hown : w.table.views.images.Own p o.url.absoluteString (some image)) :
      p.image o.data=some image := by
    obtain ⟨r,hr,hparse,himage⟩ := hown
    have hurl : r.url=o.url := Option.some.inj (hparse.symm.trans (hserved.denotes o ho))
    rw [←hserved.brings o ho r hr hurl]
    exact himage
  constructor
  · intro cell image himage
    obtain ⟨_,_,_,hbrought⟩ := hw.table.pictured.depicts cell image himage
    obtain ⟨other,s,hcall,hown⟩ := hbrought.own hw.table.pictured.coherent
    obtain ⟨user,huser,hcomplete,hurl⟩ := hw.table.pictured.calls (other,s) hcall
    refine ⟨user,huser,hcomplete,s,hurl,hown,?_⟩
    rintro o ho rfl
    exact ⟨own o ho image hown,object_picked p children es w o h ho⟩
  · intro o ho
    refine ⟨object_picked p children es w o h ho,?_⟩
    intro image hcache
    have himages := hw.table.pictured.coherent
    have hown := himages.own_normal _ _ (himages.filed _ image hcache)
    rw [p.normal_absoluteString _ _ (hserved.denotes o ho)] at hown
    exact own o ho image hown

/-- A sign-up, and its photo in the row of the new user. -/
def photographed : List Event :=
  .table (.search .viewDidLoad)::signedUp.map .signUp++
    [.table (.search .deliver),.table .reload,.table (.cellForRow 0 0),
      .table (.completeTask 0 (some ⟨[7]⟩) none),.table (.runPosted 0)]

theorem shown_photo_was_picked_photographed :
    ∃w o,(machine .plain).run (World.launch .plain ∅) photographed=some w ∧
      w.signUps.services.storage=[o] ∧ w.table.views.images.image 0=some {pixels := [7]} ∧
      PickedPhoto .plain photographed o := by
  refine ⟨_,_,rfl,rfl,rfl,?_⟩
  exact ((shown_photo_was_picked .plain ∅ photographed _ rfl).2 _
    (by exact List.mem_singleton.mpr rfl)).1

end App

end ShareImage
