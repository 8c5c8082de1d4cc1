import ShareImage.App.Pending
import ShareImage.SignUp.Permanence

namespace ShareImage

namespace Search

open Framework

section Known

variable {P : String → AnyObject → Prop}

/-- What the event writes has the property. -/
def Event.Has (P : String → AnyObject → Prop) : Event → Prop
  | .change c => c.Has P
  | .viewDidLoad | .deliver => True

/-- All children that the client, the queue or the list has knowledge of have the property. -/
structure Known (P : String → AnyObject → Prop) (w : World) : Prop where
  node : w.node.Known P
  queue : ∀snapshot∈w.queue,P snapshot.key snapshot.value
  users : ∀user∈w.controller.users,∃value,P user.uid value ∧ decode (user.uid,value)=some user

theorem Known.raise {w : World} (hw : Known P w) (e : Event)
    (h : ∀child∈w.appeared e,P child.1 child.2) : ∀snapshot∈w.raise e,
    P snapshot.key snapshot.value := by
  intro snapshot hs
  rcases List.mem_append.mp hs with hs | hs
  · exact hw.queue snapshot hs
  · obtain ⟨child,hchild,rfl⟩ := List.mem_map.mp hs
    exact h child hchild

theorem step_known (w v : World) (e : Event) (hw : Known P w) (he : e.Has P)
    (h : w.step e=some v) : Known P v := by
  rcases step_cases w v e h with ⟨rfl,_,rfl⟩ | ⟨c,node,rfl,hnode,rfl⟩ | ⟨snapshot,queue,rfl,hq,rfl⟩
  · refine ⟨hw.node,hw.raise _ ?_,hw.users⟩
    intro child hchild
    have hentries : child∈w.node.entries := (FUtilities.mem_sortedByKey ..).mp hchild
    exact hw.node.get _ _ (w.node.get_of_mem_entries child hentries)
  · have hknown : node.Known P := hw.node.change c he hnode
    refine ⟨hknown,hw.raise _ ?_,hw.users⟩
    intro child hchild
    simp only [World.appeared,hnode] at hchild
    split at hchild
    · exact hknown.get _ _ (w.node.get_of_mem_appeared node c child hchild)
    · contradiction
  · have hmem : ∀s∈snapshot::queue,P s.key s.value := hq ▸ hw.queue
    refine ⟨hw.node,fun s hs => hmem s (List.mem_cons_of_mem _ hs),?_⟩
    intro user huser
    change user∈(w.controller.fetchUsers snapshot).users at huser
    rw [SearchTableViewController.fetchUsers_users] at huser
    rcases List.mem_append.mp huser with hold | hnew
    · exact hw.users user hold
    · have hdecode : snapshot.user=some user := Option.mem_toList.mp hnew
      have huid : user.uid=snapshot.key := snapshot.user_uid user hdecode
      rw [huid]
      exact ⟨snapshot.value,hmem snapshot List.mem_cons_self,hdecode⟩

theorem run_known (children : AList fun _ : String => AnyObject) (es : List Event) (w : World)
    (h : machine.run (World.launch children) es=some w)
    (hchildren : ∀key value,children.lookup key=some value → P key value)
    (hes : ∀e∈es,e.Has P) : Known P w := by
  have start : Known P (World.launch children) := by
    refine ⟨⟨hchildren,?_⟩,?_,?_⟩ <;> intro x hx <;> contradiction
  apply machine.run_invariant_of_mem (Known P) _ w es _ start h
  intro w e v he hw hstep
  exact step_known w v e hw (hes e he) hstep

end Known

end Search

namespace App

open Framework

/-- Where a child of `users` can come from. -/
inductive Source (children : AList fun _ : String => AnyObject) (es : List Event) (w : World)
    (uid : String) (value : AnyObject) : Prop
  | initial (h : children.lookup uid=some value)
  | reported (x : Write String AnyObject) (hx : Event.report x∈es) (huid : x.key=uid)
      (hvalue : x.value=some value)
  | signedUp (r : SignUps.Record) (hr : r∈w.signUps.services.writes) (huid : r.uid=uid)
      (hvalue : .dictionary r.values=value)

/-- What an event writes to the client's copy is a report or a record of a sign-up. -/
theorem step_writes (p : Platform) (w v : World) (e : Event) (hw : Coherent p w)
    (h : w.step p e=some v) (x : Search.Event) (hx : x∈w.searchEvents e) :
    (∃y,e=.report y ∧ x=.change (.report y)) ∨
    (∃r∈v.signUps.services.writes,x=.change (.submit r.write)) ∨
    ∀P,x.Has P := by
  cases e with
  | report y => exact .inl ⟨y,rfl,List.mem_singleton.mp hx⟩
  | table e =>
    obtain ⟨hallowed,_,_⟩ := step_components p w v _ h
    cases e with
    | search s =>
      rw [List.mem_singleton.mp hx]
      cases s with
      | change c => contradiction
      | viewDidLoad | deliver => exact .inr (.inr fun _ => trivial)
    | _ => contradiction
  | signUp e =>
    obtain ⟨c,hc,rfl⟩ := List.mem_map.mp hx
    have hchange : w.signUps.change e=some c := Option.mem_toList.mp hc
    have hsettled := unsettled_of_allowed p w e (step_components p w v _ h).1
    cases SignUps.step_syncs true p w.signUps v.signUps e hw.signUps hsettled
      (step_signUps p w v e h) with
    | quiet e hquiet =>
      rw [hquiet] at hchange
      contradiction
    | sends e r hsend hwrites =>
      have hsame : c=.submit r.write := Option.some.inj (hchange.symm.trans hsend)
      subst hsame
      refine .inr (.inl ⟨r,?_,rfl⟩)
      rw [hwrites]
      simp
    | answered i f outcome d _ _ hanswer hd =>
      have hsame : c=d := Option.some.inj (hchange.symm.trans hanswer)
      subst hsame
      rcases hd with rfl | ⟨rfl,_⟩ <;> exact .inr (.inr fun _ => trivial)

/-- The list shows nobody that the database was not told of: each user in it is decoded from a child
of `users` that was there at launch, that another client has written, or that a sign-up of this
device has passed to `updateChildValues`. -/
theorem listed_from_source (p : Platform) (children : AList fun _ : String => AnyObject)
    (es : List Event) (w : World) (h : (machine p).run (World.launch p children) es=some w)
    (user : User) (huser : user∈w.table.users) :
    ∃value,Source children es w user.uid value ∧
      DataSnapshot.user ⟨user.uid,value⟩=some user := by
  have hwritten : ∀x∈(machine p).log World.searchEvents (World.launch p children) es,
      x.Has (Source children es w) := by
    intro x hx
    obtain ⟨pre,e,post,u,v,hes,hpre,hstep,hpost,hout⟩ := (machine p).mem_log _ _ w es h x hx
    have hu : Coherent p u := run_coherent p children pre u hpre
    rcases step_writes p u v e hu hstep x hout with ⟨y,rfl,rfl⟩ | ⟨r,hr,rfl⟩ | hany
    · intro value hvalue
      exact .reported y (by simp [hes]) rfl hvalue
    · have hlater : r∈w.signUps.services.writes :=
        (SignUps.run_before p _ _ _ (run_signUps p v w post hpost)).writes.subset hr
      intro value hvalue
      exact .signedUp r hlater rfl (Option.some.inj hvalue)
    · exact hany _
  exact (Search.run_known children _ w.table.search (run_search p _ w es h)
    (fun _ _ => .initial) hwritten).users user huser

/-- A record of another client comes in while the sign-up is not yet answered. -/
def reportedMeanwhile : List Event :=
  .table (.search .viewDidLoad)::signedUp.map .signUp++
    [.report ⟨"uid2",some Table.bob⟩,.table (.search .deliver),.table (.search .deliver)]

theorem listed_from_source_reportedMeanwhile :
    ∃w user other,(machine .plain).run (World.launch .plain ∅) reportedMeanwhile=some w ∧
      w.table.users=[user,other] ∧
      ∃value,Source ∅ reportedMeanwhile w user.uid value ∧
        DataSnapshot.user ⟨user.uid,value⟩=some user := by
  refine ⟨_,_,_,rfl,rfl,?_⟩
  exact listed_from_source .plain ∅ reportedMeanwhile _ rfl _ List.mem_cons_self

end App

end ShareImage
