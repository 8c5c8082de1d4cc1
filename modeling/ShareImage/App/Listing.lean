import ShareImage.App.Settlement
import ShareImage.SignUp.Permanence

namespace ShareImage

/-- The user that the record of a sign-up is read as. -/
def SignUp.user (c : SignUp) (uid : String) (url : URL) : User :=
  ⟨some c.username,some c.fullName,some url.absoluteString,uid⟩

/-- What `updateChildValues` is given reads back as the user who signed up. -/
theorem SignUp.init_dictionaryValues (c : SignUp) (uid : String) (url : URL) :
    User.init uid (c.dictionaryValues url.absoluteString)=c.user uid url := rfl

theorem SignUp.user_complete (c : SignUp) (uid : String) (url : URL) :
    (c.user uid url).isComplete=true := rfl

namespace SignUps

open Framework

/-- A record with the uid has been refused. -/
def World.Refused (w : World) (uid : String) : Prop := ∃r∈w.rejected,r.uid=uid

theorem act_refused (s : Services) (i : Nat) (f : Flow) (x : Act) (next : Flow × Services)
    (hf : f.refused=true) (h : f.act s i x=some next) : next.1.refused=true := by
  obtain ⟨c,stage,finished⟩ := f
  unfold Flow.refused at hf
  split at hf
  · rename_i uid values error hstage
    change stage=_ at hstage
    subst hstage
    cases x with
    | answer outcome => cases outcome <;> contradiction
    | complete =>
      cases finished with
      | true => contradiction
      | false =>
        cases h
        rfl
  · contradiction

/-- A refusal is final. -/
theorem step_refused (p : Platform) (w v : World) (e : Event) (uid : String)
    (hw : w.Refused uid) (h : w.step p e=some v) : v.Refused uid := by
  obtain ⟨r,hr,huid⟩ := hw
  obtain ⟨hwrites,hrefused⟩ := List.mem_filter.mp hr
  refine ⟨r,List.mem_filter.mpr ⟨(step_before p w v e h).writes.subset hwrites,?_⟩,huid⟩
  obtain ⟨f,hf,hff⟩ := (Option.any_eq_true ..).mp hrefused
  rcases step_acts p w v e h with ⟨_,_,hsame | ⟨_,c,hmore⟩⟩ | ⟨j,g,x,next,hg,hx,rfl,_⟩
  · rw [hsame]
    exact hrefused
  · have hlt : r.flow<w.flows.length := (List.getElem?_eq_some_iff.mp hf).1
    rw [hmore,List.getElem?_append_left hlt]
    exact hrefused
  · change (w.flows.set j next.1)[r.flow]?.any Flow.refused=true
    by_cases hj : j=r.flow
    · subst hj
      have hlt : r.flow<w.flows.length := (List.getElem?_eq_some_iff.mp hf).1
      have hgf : g=f := Option.some.inj (hg.symm.trans hf)
      subst hgf
      have hnext := act_refused w.services r.flow g x next hff hx
      simp [hlt,hnext]
    · rw [List.getElem?_set_ne hj]
      exact hrefused

/-- A failure is the refusal of the record that was waiting. -/
theorem refused_of_answer (p : Platform) (w v : World) (i : Nat) (f : Flow) (error : String)
    (r : Record) (hf : w.flows[i]?=some f) (hsaving : f.saving=true)
    (hr : r∈w.services.writes) (hflow : r.flow=i)
    (h : w.step p (.answer i (.failure error))=some v) : v.Refused r.uid := by
  refine ⟨r,List.mem_filter.mpr ⟨(step_before p w v _ h).writes.subset hr,?_⟩,rfl⟩
  have hlt : i<w.flows.length := (List.getElem?_eq_some_iff.mp hf).1
  simp only [World.step,Option.bind_eq_bind,Option.bind_eq_some_iff] at h
  obtain ⟨g,hg,next,hnext,hv⟩ := h
  have hgf : g=f := Option.some.inj (hg.symm.trans hf)
  subst hgf
  have hrefused : next.1.refused=true := by
    obtain ⟨c,stage,finished⟩ := g
    unfold Flow.saving at hsaving
    split at hsaving
    · rename_i uid values hstage
      change stage=_ at hstage
      subst hstage
      cases hnext
      rfl
    · contradiction
  rw [←Option.some.inj hv,hflow]
  change (w.flows.set i next.1)[i]?.any Flow.refused=true
  simp [hlt,hrefused]

/-- What the sign-ups have written at the uid. -/
def World.written (w : World) (uid : String) : Option AnyObject :=
  (w.services.writes.find? fun r => r.uid==uid).map fun r => .dictionary r.values

theorem mem_of_written (w : World) (uid : String) (value : AnyObject)
    (h : w.written uid=some value) :
    ∃r∈w.services.writes,r.uid=uid ∧ .dictionary r.values=value := by
  obtain ⟨r,hfind,hvalue⟩ := Option.map_eq_some_iff.mp h
  exact ⟨r,List.mem_of_find?_eq_some hfind,by simpa using List.find?_some hfind,hvalue⟩

theorem written_congr (w v : World) (uid : String) (h : v.services.writes=w.services.writes) :
    v.written uid=w.written uid := by
  rw [World.written,World.written,h]

theorem written_other (w v : World) (uid : String) (r : Record) (hr : r.uid≠uid)
    (h : v.services.writes=w.services.writes++[r]) : v.written uid=w.written uid := by
  rw [World.written,World.written,h,List.find?_append]
  simp [hr]

/-- The first record of a uid is the only one. -/
theorem Coherent.written_self {lossy : Bool} {w v : World} (hv : Coherent lossy v) (r : Record)
    (h : v.services.writes=w.services.writes++[r]) :
    w.written r.uid=none ∧ v.written r.uid=some (.dictionary r.values) := by
  have hnodup := hv.writes_uids
  rw [h,List.map_append,List.nodup_append] at hnodup
  have hnone : w.services.writes.find? (fun x => x.uid==r.uid)=none := by
    apply List.find?_eq_none.mpr
    intro x hx hxr
    have hmem : x.uid∈w.services.writes.map Record.uid := List.mem_map_of_mem hx
    exact hnodup.2.2 x.uid hmem r.uid (by simp) (by simpa using hxr)
  constructor
  · rw [World.written,hnone]
    rfl
  · rw [World.written,h,List.find?_append,hnone]
    simp

theorem Coherent.written_of_mem {lossy : Bool} {w : World} (hw : Coherent lossy w) (r : Record)
    (hr : r∈w.services.writes) : w.written r.uid=some (.dictionary r.values) := by
  unfold World.written
  cases hfind : w.services.writes.find? (fun x => x.uid==r.uid) with
  | none => exact absurd (beq_self_eq_true r.uid) (List.find?_eq_none.mp hfind r hr)
  | some x =>
    have hx : x∈w.services.writes := List.mem_of_find?_eq_some hfind
    have huid : x.uid=r.uid := by simpa using List.find?_some hfind
    have hxr : x=r := List.inj_on_of_nodup_map hw.writes_uids hx hr huid
    rw [hxr]
    rfl

/-- A record reads back as the user of its sign-up, whose photo is stored. -/
theorem Coherent.record_user {lossy : Bool} {w : World} (hw : Coherent lossy w) (r : Record)
    (hr : r∈w.services.writes) :
    ∃f url,w.flows[r.flow]?=some f ∧
      w.services.object f.captured.storageRef=some (f.captured.stored r.flow url) ∧
      User.init r.uid r.values=f.captured.user r.uid url := by
  obtain ⟨f,uid,url,hf,hrec,_,hobject⟩ := hw.writes r hr
  refine ⟨f,url,hf,hw.object_at _ hobject,?_⟩
  have hvalues : r.values=f.captured.dictionaryValues url.absoluteString := by rw [hrec]; rfl
  rw [hvalues,f.captured.init_dictionaryValues]

end SignUps

namespace App

open Framework

/-- At the uid the client reads what the sign-ups have written there. -/
def Holds (uid : String) (w : World) : Prop := w.node.get uid=w.signUps.written uid

/-- The event leaves the uid to the sign-ups: no other client writes there, and the database refuses
no record there. -/
structure Undisturbed (uid : String) (e : Event) (v : World) : Prop where
  report : ∀x,e=.report x → x.key≠uid
  accepted : ¬v.signUps.Refused uid

/-- A refusal takes back the oldest record that waits, which is the one refused. -/
theorem refused_of_touched (p : Platform) (w v : World) (i : Nat) (f : SignUps.Flow)
    (error uid : String) (hw : Coherent p w) (hf : w.signUps.flows[i]?=some f)
    (hsaving : f.saving=true) (h : w.step p (.signUp (.answer i (.failure error)))=some v)
    (htouched : w.node.touched .reject=some uid) : v.signUps.Refused uid := by
  obtain ⟨hallowed,_,_⟩ := step_components p w v _ h
  obtain ⟨r,rest,hhead,hr⟩ := answered_head p w i f _ hf hsaving hallowed
  have hlinked : w.node.pending=w.signUps.unanswered.map SignUps.Record.write := hw.linked
  have hkey : r.uid=uid := by
    simpa [Replica.touched,hlinked,hhead,SignUps.Record.write] using htouched
  have hmem : r∈w.signUps.services.writes := by
    have hun : r∈w.signUps.unanswered := by simp [hhead]
    exact List.mem_of_mem_filter hun
  exact hkey ▸ SignUps.refused_of_answer p w.signUps v.signUps i f error r hf hsaving hmem hr
    (step_signUps p w v _ h)

theorem step_holds (p : Platform) (uid : String) (w v : World) (e : Event) (hw : Coherent p w)
    (hholds : Holds uid w) (hu : Undisturbed uid e v) (h : w.step p e=some v) :
    Holds uid v ∧ ∀value,w.node.get uid=some value → v.node.get uid=some value := by
  have hv : SignUps.Coherent true v.signUps := (step_coherent p w e v hw h).signUps
  have same (hget : v.node.get uid=w.node.get uid)
      (hwritten : v.signUps.written uid=w.signUps.written uid) :
      Holds uid v ∧ ∀value,w.node.get uid=some value → v.node.get uid=some value := by
    refine ⟨?_,fun value hvalue => hget.trans hvalue⟩
    rw [Holds,hget,hwritten]
    exact hholds
  cases step_node p w v e h with
  | table e hs hnode => exact same (by rw [hnode]) (by rw [hs])
  | report x hs hnode =>
    refine same (w.node.get_change v.node _ hnode uid ?_) (by rw [hs])
    intro hx
    exact hu.report x rfl (Option.some.inj hx)
  | signUp e hs hchange hnode =>
    refine same (by rw [hnode]) ?_
    have hsettled := unsettled_of_allowed p w e (step_components p w v _ h).1
    cases SignUps.step_syncs true p w.signUps v.signUps e hw.signUps hsettled hs with
    | quiet e _ hwrites => exact SignUps.written_congr _ _ uid hwrites
    | sends e r hsend => rw [hchange] at hsend; contradiction
    | answered i f outcome c _ _ hanswer => rw [hchange] at hanswer; contradiction
  | change e c hs hchange hnode =>
    have hsettled := unsettled_of_allowed p w e (step_components p w v _ h).1
    cases SignUps.step_syncs true p w.signUps v.signUps e hw.signUps hsettled hs with
    | quiet e hquiet => rw [hchange] at hquiet; contradiction
    | sends e r hsend hwrites =>
      have hc : c=.submit r.write := Option.some.inj (hchange.symm.trans hsend)
      subst hc
      by_cases huid : r.uid=uid
      · subst huid
        obtain ⟨hbefore,hafter⟩ := hv.written_self r hwrites
        have hnone : w.node.get r.uid=none := hholds.trans hbefore
        have hsome : v.node.get r.uid=some (.dictionary r.values) :=
          w.node.get_submit v.node r.write hnode
        refine ⟨hsome.trans hafter.symm,?_⟩
        intro value hvalue
        rw [hnone] at hvalue
        contradiction
      · refine same (w.node.get_change v.node _ hnode uid ?_)
          (SignUps.written_other _ _ uid r huid hwrites)
        intro hx
        exact huid (Option.some.inj hx)
    | answered i f outcome d hf hsaving hanswer hd hwrites hunanswered =>
      have hcd : c=d := Option.some.inj (hchange.symm.trans hanswer)
      subst hcd
      refine same (w.node.get_change v.node c hnode uid ?_)
        (SignUps.written_congr _ _ uid hwrites)
      rcases hd with rfl | ⟨rfl,error,rfl⟩
      · simp [Replica.touched]
      · intro hx
        exact hu.accepted (refused_of_touched p w v i f error uid hw hf hsaving h hx)

/-- A step whose state keeps what the client reads at the uid puts out events that do. -/
theorem step_keeps (p : Platform) (uid : String) (w v : World) (e : Event)
    (h : w.step p e=some v)
    (hkeep : ∀value,w.node.get uid=some value → v.node.get uid=some value) :
    Search.machine.Meets (Search.Keeps uid) w.table.search (w.searchEvents e) := by
  have hsearch := step_search p w v e h
  have single (x : Search.Event) (hx : w.searchEvents e=[x]) :
      Search.machine.Meets (Search.Keeps uid) w.table.search [x] := by
    rw [hx] at hsearch
    have hstep := run_search_single _ _ x hsearch
    refine ⟨?_,?_⟩
    · intro u value _ hu hvalue
      have huv : u=v.table.search := Option.some.inj (hu.symm.trans hstep)
      rw [huv]
      exact hkeep value hvalue
    · cases Search.machine.step w.table.search x <;> trivial
  cases hevents : w.searchEvents e with
  | nil => trivial
  | cons x xs =>
    have hnil : xs=[] := by
      cases e with
      | signUp e =>
        simp only [World.searchEvents] at hevents
        cases hchange : w.signUps.change e with
        | none => simp [hchange] at hevents
        | some c => simp [hchange] at hevents; exact hevents.2
      | report x => exact (List.cons.inj hevents).2.symm
      | table e =>
        cases e with
        | search x => exact (List.cons.inj hevents).2.symm
        | _ => contradiction
    subst hnil
    exact single x hevents

theorem step_refused (p : Platform) (w v : World) (e : Event) (uid : String)
    (h : w.step p e=some v) (hw : w.signUps.Refused uid) : v.signUps.Refused uid := by
  cases step_node p w v e h with
  | signUp e hs | change e c hs => exact SignUps.step_refused p _ _ e uid hw hs
  | report x hs | table e hs => exact hs ▸ hw

theorem run_refused (p : Platform) (w v : World) (es : List Event) (uid : String)
    (h : (machine p).run w es=some v) (hw : w.signUps.Refused uid) : v.signUps.Refused uid := by
  apply (machine p).run_invariant (fun w => w.signUps.Refused uid) _ w v es hw h
  intro w e v hw hstep
  exact step_refused p w v e uid hstep hw

section Uid

variable (p : Platform) (children : AList fun _ : String => AnyObject) (uid : String)
variable (hchildren : children.lookup uid=none)

theorem undisturbed_of_split (s w u v : World) (pre post : List Event) (e : Event)
    (h : (machine p).run s (pre++e::post)=some w) (hpre : (machine p).run s pre=some u)
    (hkept : ¬w.signUps.Refused uid) (he : u.step p e=some v)
    (hreports : ∀x,Event.report x∈pre++e::post → x.key≠uid) : Undisturbed uid e v where
  report := by
    intro x hx
    exact hreports x (by simp [hx])
  accepted := by
    obtain ⟨u',hu',hrest⟩ := (machine p).run_split s w pre (e::post) h
    have huu : u'=u := Option.some.inj (hu'.symm.trans hpre)
    subst huu
    obtain ⟨v',hv',hpost⟩ := (machine p).run_cons_split u' w e post hrest
    have hvv : v'=v := Option.some.inj (hv'.symm.trans he)
    subst hvv
    exact fun hrefused => hkept (run_refused p v' w post uid hpost hrefused)

include hchildren

/-- In a run that leaves the uid to the sign-ups, the client reads there what they have written. -/
theorem run_holds (es : List Event) (w : World)
    (h : (machine p).run (World.launch p children) es=some w) (hkept : ¬w.signUps.Refused uid)
    (hreports : ∀x,Event.report x∈es → x.key≠uid) : Holds uid w := by
  have start : Holds uid (World.launch p children) := hchildren
  have hboth : Coherent p w ∧ Holds uid w := by
    apply (machine p).run_invariant_of_split (fun w => Coherent p w ∧ Holds uid w)
      (World.launch p children) w es _ ⟨launch_coherent p children,start⟩ h
    rintro pre e post u v rfl hpre ⟨hu,hholds⟩ hstep
    have hundisturbed := undisturbed_of_split p uid _ w u v pre post e h hpre hkept hstep hreports
    exact ⟨step_coherent p u e v hu hstep,
      (step_holds p uid u v e hu hholds hundisturbed hstep).1⟩
  exact hboth.2

theorem run_keeps (es : List Event) (w : World)
    (h : (machine p).run (World.launch p children) es=some w) (hkept : ¬w.signUps.Refused uid)
    (hreports : ∀x,Event.report x∈es → x.key≠uid) :
    Search.machine.Meets (Search.Keeps uid) (Search.World.launch children)
      ((machine p).log World.searchEvents (World.launch p children) es) := by
  apply (machine p).log_meets Search.machine (fun w => w.table.search) World.searchEvents
    (Search.Keeps uid) (World.launch p children) w es h (fun w e v hs => step_search p w v e hs)
  intro pre e post u v hes hpre hstep
  subst hes
  have hundisturbed := undisturbed_of_split p uid _ w u v pre post e h hpre hkept hstep hreports
  have hkeptu : ¬u.signUps.Refused uid :=
    fun hrefused => hundisturbed.accepted (step_refused p u v e uid hstep hrefused)
  have hholds : Holds uid u := by
    apply run_holds p children uid hchildren pre u hpre hkeptu
    intro x hx
    exact hreports x (List.mem_append_left _ hx)
  exact step_keeps p uid u v e hstep
    (step_holds p uid u v e (run_coherent p children pre u hpre) hholds hundisturbed hstep).2

end Uid

/-- A record that has not been refused has never been: its uid is its own. -/
theorem not_refused (p : Platform) (children : AList fun _ : String => AnyObject)
    (es : List Event) (w : World) (r : SignUps.Record)
    (h : (machine p).run (World.launch p children) es=some w)
    (hr : r∈w.signUps.services.writes) (haccepted : r∉w.signUps.rejected) :
    ¬w.signUps.Refused r.uid := by
  have hw : SignUps.Coherent true w.signUps := (run_coherent p children es w h).signUps
  rintro ⟨x,hx,hxr⟩
  have hsame : x=r :=
    List.inj_on_of_nodup_map hw.writes_uids (List.mem_of_mem_filter hx) hr hxr
  exact haccepted (hsame ▸ hx)

/-- A user who signs up is found. Once the search screen observes `users` and has heard everything,
the record of a sign-up that the database has not refused is in the list exactly once, complete,
with the names of the form and the URL that its photo is stored at; and the row's cell, while the
row is on screen, shows these names. No other client may write at the uid of the account. -/
theorem sign_up_listed_once (p : Platform) (children : AList fun _ : String => AnyObject)
    (es : List Event) (w : World) (r : SignUps.Record)
    (h : (machine p).run (World.launch p children) es=some w)
    (hr : r∈w.signUps.services.writes) (haccepted : r∉w.signUps.rejected)
    (hchildren : children.lookup r.uid=none) (hreports : ∀x,Event.report x∈es → x.key≠r.uid)
    (hobserving : w.table.search.observing=true) (hqueue : w.table.search.queue=[]) :
    ∃f url,w.signUps.flows[r.flow]?=some f ∧
      w.signUps.services.object f.captured.storageRef=some (f.captured.stored r.flow url) ∧
      (w.table.users.filter fun user => user.uid==r.uid)=[f.captured.user r.uid url] ∧
      ∀row cell user,(row,cell)∈w.table.cells.used → w.table.users[row]?=some user →
        user.uid=r.uid → w.table.views.view cell=Table.labels (f.captured.user r.uid url) := by
  have hw : Coherent p w := run_coherent p children es w h
  have hkept := not_refused p children es w r h hr haccepted
  obtain ⟨f,url,hf,hobject,huser⟩ := hw.signUps.record_user r hr
  have hget : w.table.search.node.get r.uid=some (.dictionary r.values) :=
    (run_holds p children r.uid hchildren es w h hkept hreports).trans
      (hw.signUps.written_of_mem r hr)
  have hsearch := run_search p _ w es h
  have honce := Search.run_appearedOnce r.uid children _ _ hsearch
    (run_keeps p children r.uid hchildren es w h hkept hreports)
  have hacc : Search.Accounts _ w.table.search := Search.run_accounts children _ _ hsearch
  have hlist : (w.table.users.filter fun user => user.uid==r.uid)=[f.captured.user r.uid url] := by
    rw [Search.Accounts,hqueue,List.filterMap_nil,List.append_nil] at hacc
    rw [Search.AppearedOnce,hobserving,if_pos rfl] at honce
    rw [Table.World.users,hacc,Search.filter_decode,honce,Replica.entry,hget]
    simp [Search.decode,DataSnapshot.user,AnyObject.asDictionary,huser]
  refine ⟨f,url,hf,hobject,hlist,?_⟩
  intro row cell user hcell hrow hrowuid
  have hmem : user∈w.table.users.filter fun user => user.uid==r.uid := by
    simpa [hrowuid] using List.mem_of_getElem? hrow
  rw [hlist,List.mem_singleton] at hmem
  obtain ⟨shown,hshown,hcelluser⟩ := hw.table.row row cell hcell
  have hsame : shown=user := Option.some.inj (hshown.symm.trans hrow)
  rw [hsame,hmem] at hcelluser
  exact hw.table.shows cell _ hcelluser (f.captured.user_complete r.uid url)

/-- While the search screen is shown, its row comes before the database has answered. -/
def listedEarly : List Event :=
  .table (.search .viewDidLoad)::signedUp.map .signUp++
    [.table (.search .deliver),.table .reload,.table (.cellForRow 0 0),
      .signUp (.answer 0 (.success ""))]

theorem sign_up_listed_once_listedEarly :
    ∃w r,(machine .plain).run (World.launch .plain ∅) listedEarly=some w ∧
      w.signUps.services.writes=[r] ∧ w.table.cells.used=[(0,0)] ∧
      ∃f url,w.signUps.flows[r.flow]?=some f ∧
        (w.table.users.filter fun user => user.uid==r.uid)=[f.captured.user r.uid url] := by
  refine ⟨_,_,rfl,rfl,rfl,?_⟩
  have h := sign_up_listed_once .plain ∅ listedEarly _ _ rfl (by exact List.mem_singleton.mpr rfl)
    (by exact List.not_mem_nil) rfl
    (by intro x hx; simp [listedEarly,signedUp,SignUps.submission] at hx) rfl rfl
  obtain ⟨f,url,hf,_,hlist,_⟩ := h
  exact ⟨f,url,hf,hlist⟩

end App

end ShareImage
