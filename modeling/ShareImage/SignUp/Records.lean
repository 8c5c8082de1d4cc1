import ShareImage.SignUp.Resubmission

namespace ShareImage.SignUps

open Framework

/-- The UUIDs in use are those of the taps so far, all distinct. -/
theorem run_uuids (p : Platform) (es : List Event) (w : World)
    (h : (machine p).run (World.launch p) es=some w) :
    w.uuids=es.filterMap Event.generates ∧ w.uuids.Nodup := by
  refine (machine p).run_history
    (fun es w => w.uuids=es.filterMap Event.generates ∧ w.uuids.Nodup)
    (World.launch p) ⟨rfl,List.nodup_nil⟩ ?_ es w h
  rintro es u e v _ ⟨hu,hn⟩ hstep
  have quiet (he : e.generates=none) (hv : v.uuids=u.uuids) :
      v.uuids=(es++[e]).filterMap Event.generates ∧ v.uuids.Nodup := by
    rw [List.filterMap_append,hv,←hu]
    exact ⟨by simp [he],hn⟩
  rcases step_cases p u v e hstep with hq | ⟨n,uuid,rfl,_,hnew,rfl⟩ | ⟨i,f,next,_,rfl,hs⟩
  · exact quiet hq.generates hq.uuids
  · rw [List.filterMap_append,←hu]
    refine ⟨rfl,List.nodup_append.mpr ⟨hn,by simp,?_⟩⟩
    intro a ha b hb hab
    have hb' : b=uuid := by simpa using hb
    exact hnew (hb' ▸ hab ▸ ha)
  · rcases hs with ⟨outcome,rfl,_⟩ | ⟨rfl,_⟩ <;> exact quiet rfl rfl

/-- Only one tap of a run generates a given UUID. -/
theorem tap_unique (p : Platform) (w : World) (pre post pre' post' : List Event) (n n' : Nat)
    (uuid : String)
    (h : (machine p).run (World.launch p) (pre++.tapSignUp n uuid::post)=some w)
    (hes : pre++.tapSignUp n uuid::post=pre'++.tapSignUp n' uuid::post') : pre=pre' := by
  obtain ⟨hids,hn⟩ := run_uuids p _ w h
  exact split_unique Event.generates uuid pre pre' _ _ post post' (hids ▸ hn) hes rfl rfl

/-- A sign-up goes back to the tap that started it. -/
theorem flow_tapped (p : Platform) (es : List Event) (w : World) (i : Nat) (f : Flow)
    (h : (machine p).run (World.launch p) es=some w) (hf : w.flows[i]?=some f) :
    ∃pre n uuid post v,es=pre++.tapSignUp n uuid::post ∧
      (machine p).run (World.launch p) pre=some v ∧ v.flows.length=i ∧
      (v.signUp n).signUpButton.isEnabled=true ∧
      (v.signUp n).handleSignUp p uuid=some f.captured := by
  obtain ⟨pre,e,post,u,v,hes,hpre,hstep,_,hnot,g,hg,hgf⟩ :=
    (machine p).run_first (fun v => ∃g,v.flows[i]?=some g ∧ g.captured=f.captured)
      (World.launch p) w es (by rintro ⟨g,hg,_⟩; simp [World.launch] at hg) h ⟨f,hf,rfl⟩
  have old : ∀x : Flow,u.flows[i]?=some x → x.captured≠f.captured := by
    intro x hx hxf
    exact hnot ⟨x,hx,hxf⟩
  rcases step_cases p u v e hstep with hq | ⟨n,uuid,rfl,hen,_,rfl⟩ | ⟨j,x,next,hx,rfl,hs⟩
  · rw [hq.flows] at hg
    exact absurd hgf (old g hg)
  · rcases tapSignUp_flow p u n uuid i g hg with hold | ⟨hi,c,hc,hnew⟩
    · exact absurd hgf (old g hold)
    · have hcaptured : c=f.captured := by
        rw [←hgf,hnew]
      rw [hcaptured] at hc
      exact ⟨pre,n,uuid,post,u,hes,hpre,hi.symm,hen,hc⟩
  · have hu : Coherent true u := run_coherent p pre u hpre
    have hcap : next.1.captured=x.captured := by
      rcases hs with ⟨outcome,_,ha⟩ | ⟨_,hc⟩
      · exact (answer_advances true u.services j x outcome next (fun _ => rfl) (hu.reached j x hx)
          (hu.object_own j x hx) ha).captured
      · exact (complete_advances true j x _ next (hu.reached j x hx) hc).captured
    obtain ⟨y,hy,hyg⟩ := advance_flow u j i x g next hx hcap hg
    exact absurd (hyg.trans hgf) (old y hy)

/-- The path of a sign-up serves the object that the sign-up put there. -/
theorem Coherent.served {lossy : Bool} {w : World} (hw : Coherent lossy w) (i : Nat) (f : Flow)
    (uid : String) (url : URL) (hf : w.flows[i]?=some f)
    (hr : f.captured.record i uid url∈w.services.writes) :
    w.services.object f.captured.storageRef=some (f.captured.stored i url) := by
  have hmem : f.captured.record i uid url∈(w.services.of i).writes := (mem_own ..).mpr ⟨hr,rfl⟩
  obtain ⟨uid',url',hrec,_,ho⟩ := (hw.reached i f hf).writes _ hmem
  have hurl : url=url' := by
    have hvalues := congrArg Record.values hrec
    simp only [SignUp.record,SignUp.dictionaryValues,List.cons.injEq,Prod.mk.injEq,
      AnyObject.string.injEq] at hvalues
    cases url
    cases url'
    simp_all
  have hstored : f.captured.stored i url∈w.services.storage :=
    ((mem_own ..).mp (show f.captured.stored i url∈(w.services.of i).storage by
      rw [ho,hurl]; simp)).1
  cases hlast : w.services.object f.captured.storageRef with
  | none =>
    rw [Services.object,List.getLast?_eq_none_iff,List.filter_eq_nil_iff] at hlast
    exact absurd (beq_self_eq_true _) (hlast _ hstored)
  | some o =>
    have hown := hw.object_own i f hf o hlast
    rw [ho] at hown
    rw [List.mem_singleton.mp hown,hurl]

/-- Record `r` is made from the tap of screen `n` that generated `uuid`, in the state `v` which
the events `pre` had led to; `w` is the state in which it has been written. -/
structure MadeFrom (p : Platform) (w : World) (r : Record) (pre : List Event) (v : World)
    (n : Nat) (uuid : String) (c : SignUp) (username : String) (image : UIImage) (url : URL) :
    Prop where
  enabled : (v.signUp n).signUpButton.isEnabled=true
  own : v.flows.length=r.flow
  email : (v.signUp n).emailTextField.text=some c.email ∧ c.email≠""
  password : (v.signUp n).passwordTextField.text=some c.password ∧ c.password≠""
  fullName : (v.signUp n).fullNameTextField.text=some c.fullName ∧ c.fullName≠""
  username : (v.signUp n).usernameTextField.text=some username ∧
    c.username=p.lowercased username ∧ c.username≠""
  photo : lastPicked n pre=some image ∧ p.jpegData image (3/10)=some c.uploadData
  account : ⟨c.email,c.password,r.uid,r.flow⟩∈w.services.auth
  object : w.services.object ["profile_images",uuid]=
    some ⟨["profile_images",uuid],c.uploadData,url,r.flow⟩
  values : r.values=[("photo UID",.string uuid),("profileImageUrl",.string url.absoluteString),
    ("email",.string c.email),("password",.string c.password),("fullname",.string c.fullName),
    ("username",.string c.username)]

/-- What an enabled button sends off. -/
theorem handleSignUp_of_enabled (p : Platform) (picked : Option UIImage)
    (vc : SignUpViewController) (hfit : vc.Fits p picked) (uuid : String) (c : SignUp)
    (hen : vc.signUpButton.isEnabled=true) (hc : vc.handleSignUp p uuid=some c) :
    ∃username image,(vc.emailTextField.text=some c.email ∧ c.email≠"") ∧
      (vc.passwordTextField.text=some c.password ∧ c.password≠"") ∧
      (vc.fullNameTextField.text=some c.fullName ∧ c.fullName≠"") ∧
      (vc.usernameTextField.text=some username ∧ c.username=p.lowercased username ∧
        c.username≠"") ∧
      (picked=some image ∧ p.jpegData image (3/10)=some c.uploadData) ∧
      c.profileImageUID=uuid := by
  obtain ⟨username,shown,he,hp,hf,hu,hlow,hphoto,hdata,hid⟩ := vc.handleSignUp_captured p uuid c hc
  obtain ⟨hfill,hpicked⟩ := hfit.enabled hen
  have nonempty (field : UITextField) (text : String) (ht : field.text=some text)
      (hh : field.hasText=true) : text≠"" := by
    obtain ⟨t,hft,hne⟩ := field.hasText_iff.mp hh
    exact Option.some.inj (ht.symm.trans hft) ▸ hne
  obtain ⟨image,himage⟩ := Option.ne_none_iff_exists'.mp hpicked
  have hshown : shown=image.withRenderingMode .alwaysOriginal := by
    have h := hphoto.symm.trans hfit.photo
    rw [himage] at h
    exact Option.some.inj h
  refine ⟨username,image,⟨he,nonempty _ _ he (hfill .email)⟩,
    ⟨hp,nonempty _ _ hp (hfill .password)⟩,⟨hf,nonempty _ _ hf (hfill .fullName)⟩,
    ⟨hu,hlow,?_⟩,⟨himage,?_⟩,hid⟩
  · intro hempty
    exact nonempty _ _ hu (hfill .username) (p.lowercased_eq_empty _ (hlow ▸ hempty))
  · rw [←hdata,hshown,Platform.jpegData_withRenderingMode]

/-- Every record passed to `updateChildValues` is made from one tap: from the fields as they
were then, all with text, the UUID of that tap, the account of its own `createUser`, and the URL
of the object, already stored under that UUID, that encodes the photo last picked before. -/
theorem record_of_one_tap (p : Platform) (es : List Event) (w : World) (r : Record)
    (h : (machine p).run (World.launch p) es=some w) (hr : r∈w.services.writes) :
    ∃pre n uuid post v,es=pre++.tapSignUp n uuid::post ∧
      (machine p).run (World.launch p) pre=some v ∧
      (∀pre' n' post',es=pre'++.tapSignUp n' uuid::post' → pre=pre') ∧
      ∃c username image url,MadeFrom p w r pre v n uuid c username image url := by
  have hw := run_coherent p es w h
  obtain ⟨f,uid,url,hf,hrec,ha,_⟩ := hw.writes r hr
  obtain ⟨pre,n,uuid,post,v,hes,hpre,hlen,hen,hc⟩ := flow_tapped p es w r.flow f h hf
  obtain ⟨username,image,he,hp,hfn,hu,hi,hid⟩ :=
    handleSignUp_of_enabled p _ (v.signUp n) (run_fits p pre v hpre n) uuid f.captured hen hc
  have huid : r.uid=uid := by rw [hrec]; rfl
  have hobject := hw.served r.flow f uid url hf (hrec ▸ hr)
  refine ⟨pre,n,uuid,post,v,hes,hpre,?_,f.captured,username,image,url,?_⟩
  · intro pre' n' post' hes'
    exact tap_unique p w pre post pre' post' n n' uuid (hes ▸ h) (hes ▸ hes')
  · refine ⟨hen,hlen,he,hp,hfn,hu,hi,huid ▸ ha,?_,?_⟩
    · rw [←hid]
      exact hobject
    · rw [hrec,←hid]
      rfl

/-- A run that writes a record: the photo is picked again and the name edited after the tap. -/
def editedAfterTap : List Event :=
  submission 0 {pixels := [7]} "a@x.org" "secret" "Ann Lee" "Ann" "U1"++
    [.pickPhoto 0 (some {pixels := [8]}),.editSignUp 0 .fullName "Bob",
      .answer 0 (.success "uid1"),.complete 0,.answer 0 (.success "https://i/1"),.complete 0,
      .answer 0 (.success ""),.complete 0]

theorem record_of_one_tap_editedAfterTap :
    ∃w r,(machine .plain).run (World.launch .plain) editedAfterTap=some w ∧
      w.services.writes=[r] ∧ r.values.string "fullname"=some "Ann Lee" ∧
      ∃pre n uuid post v,editedAfterTap=pre++.tapSignUp n uuid::post ∧
        (machine .plain).run (World.launch .plain) pre=some v ∧
        (∀pre' n' post',editedAfterTap=pre'++.tapSignUp n' uuid::post' → pre=pre') ∧
        ∃c username image url,MadeFrom .plain w r pre v n uuid c username image url := by
  refine ⟨_,_,rfl,rfl,rfl,?_⟩
  exact record_of_one_tap .plain editedAfterTap _ _ rfl (by exact List.mem_singleton.mpr rfl)

end ShareImage.SignUps
