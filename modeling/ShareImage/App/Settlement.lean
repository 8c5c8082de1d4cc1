import ShareImage.App.Pending
import ShareImage.SignUp.Records

namespace ShareImage

namespace SignUps

open Framework

/-- The records that the database has refused. -/
def World.rejected (w : World) : List Record :=
  w.services.writes.filter fun r => w.flows[r.flow]?.any Flow.refused

theorem mem_unanswered (w : World) (r : Record) (f : Flow) (hr : r∈w.services.writes)
    (hf : w.flows[r.flow]?=some f) : r∈w.unanswered ↔ f.saving=true := by
  simp [World.unanswered,hr,hf]

theorem mem_rejected (w : World) (r : Record) (f : Flow) (hr : r∈w.services.writes)
    (hf : w.flows[r.flow]?=some f) : r∈w.rejected ↔ f.refused=true := by
  simp [World.rejected,hr,hf]

/-- Where a record that has been passed to `updateChildValues` stands. -/
inductive Settles (w : World) (r : Record) (f : Flow) : Prop
  | unanswered (hs : f.saving=true) (hr : f.refused=false) (hd : r∉w.services.database)
  | rejected (hs : f.saving=false) (hr : f.refused=true) (hd : r∉w.services.database)
  | accepted (hs : f.saving=false) (hr : f.refused=false) (hd : r∈w.services.database)

section Coherent

variable {lossy : Bool} {w : World} (hw : Coherent lossy w)
include hw

theorem Coherent.settles (hsettled : Settled w) (r : Record) (hr : r∈w.services.writes) :
    ∃f,w.flows[r.flow]?=some f ∧ Settles w r f := by
  have hwrites : r∈(w.services.of r.flow).writes := (mem_own ..).mpr ⟨hr,rfl⟩
  have hdatabase : r∈(w.services.of r.flow).database ↔ r∈w.services.database := by
    rw [Services.of,mem_own]
    exact and_iff_left rfl
  obtain ⟨f,hf⟩ := hw.started r.flow (w.services.of_ne_empty_of_writes r hr)
  refine ⟨f,hf,?_⟩
  have hnone : f.refused=true → (w.services.of r.flow).database=[] := hsettled r.flow f hf
  obtain ⟨c,stage,finished⟩ := f
  have hreached : Reached lossy r.flow c stage finished (w.services.of r.flow) :=
    hw.reached r.flow _ hf
  generalize w.services.of r.flow=own at hwrites hdatabase hreached hnone
  cases hreached with
  | saving uid url => exact .unanswered rfl rfl (by rw [←hdatabase]; simp)
  | unsaved uid url => exact .rejected rfl rfl (by rw [←hdatabase]; simp)
  | saved uid url => exact .accepted rfl rfl (hdatabase.mp hwrites)
  | savedUnseen uid url => cases hnone rfl
  | creating | refused | created | uploading | unstored | stored | resolving | unresolved |
    resolved | createdUnseen | storedUnseen => contradiction

/-- Sign-ups with one record at most have records with distinct uids. -/
theorem Coherent.record_uids (log : List Record) (hsub : ∀r∈log,r∈w.services.writes)
    (hone : ∀i,(own Record.flow i log).length≤1) : (log.map Record.uid).Nodup := by
  rw [List.nodup_iff_count_le_one]
  intro uid
  have hcount : (log.map Record.uid).count uid=log.countP fun r => r.uid==uid := by
    rw [List.count_eq_countP,List.countP_map]
    rfl
  rw [hcount]
  apply countP_le_one log (fun r => r.uid==uid) hone
  intro a ha b hb hau hbu
  obtain ⟨f,u,_,_,hrec,hauth,_⟩ := hw.writes a (hsub a ha)
  obtain ⟨g,x,_,_,hrec',hauth',_⟩ := hw.writes b (hsub b hb)
  have hu : u=uid := by
    have hau' : a.uid=uid := by simpa using hau
    rw [hrec] at hau'
    exact hau'
  have hx : x=uid := by
    have hbu' : b.uid=uid := by simpa using hbu
    rw [hrec'] at hbu'
    exact hbu'
  have hsame : f.captured.account a.flow u=g.captured.account b.flow x := by
    apply List.inj_on_of_nodup_map hw.uids hauth hauth'
    rw [hu,hx]
    rfl
  exact congrArg Account.flow hsame

theorem Coherent.writes_uids : (w.services.writes.map Record.uid).Nodup :=
  hw.record_uids _ (fun _ hr => hr) fun i => (hw.lengths i).2.2.1

/-- Every record is in exactly one of three places. -/
theorem Coherent.writes_perm (hsettled : Settled w) :
    w.services.writes.Perm (w.unanswered++w.rejected++w.services.database) := by
  have hwrites : w.services.writes.Nodup := hw.writes_uids.of_map
  have hdatabase : w.services.database.Nodup :=
    (hw.record_uids _ hw.writes_of_database fun i => (hw.lengths i).2.2.2).of_map
  have hboth : (w.unanswered++w.rejected).Nodup := by
    refine List.nodup_append.mpr ⟨hwrites.filter _,hwrites.filter _,?_⟩
    rintro r hr x hx rfl
    have hmem : r∈w.services.writes := List.mem_of_mem_filter hr
    obtain ⟨f,hf,hs⟩ := hw.settles hsettled r hmem
    rw [mem_unanswered w r f hmem hf] at hr
    rw [mem_rejected w r f hmem hf] at hx
    cases hs <;> simp_all
  have hall : (w.unanswered++w.rejected++w.services.database).Nodup := by
    refine List.nodup_append.mpr ⟨hboth,hdatabase,?_⟩
    rintro r hr x hx rfl
    have hmem : r∈w.services.writes := hw.writes_of_database r hx
    obtain ⟨f,hf,hs⟩ := hw.settles hsettled r hmem
    rw [List.mem_append,mem_unanswered w r f hmem hf,mem_rejected w r f hmem hf] at hr
    cases hs <;> simp_all
  apply (List.perm_ext_iff_of_nodup hwrites hall).mpr
  intro r
  constructor
  · intro hr
    obtain ⟨f,hf,hs⟩ := hw.settles hsettled r hr
    rw [List.mem_append,List.mem_append,mem_unanswered w r f hr hf,mem_rejected w r f hr hf]
    cases hs with
    | unanswered hs _ _ => exact .inl (.inl hs)
    | rejected _ hr _ => exact .inl (.inr hr)
    | accepted _ _ hd => exact .inr hd
  · intro hr
    rcases List.mem_append.mp hr with hr | hr
    · rcases List.mem_append.mp hr with hr | hr
      · exact List.mem_of_mem_filter hr
      · exact List.mem_of_mem_filter hr
    · exact hw.writes_of_database r hr

end Coherent

end SignUps

namespace App

open Framework

/-- No record is lost or taken twice. Each record passed to `updateChildValues` is unanswered,
refused or in the database, and only one of these. The unanswered ones are, in order, the client's
own unconfirmed writes to `users`: the client shows each as it was passed, whatever the server has
at its uid, and shows what the server has everywhere else. -/
theorem records_settle (p : Platform) (children : AList fun _ : String => AnyObject)
    (es : List Event) (w : World) (h : (machine p).run (World.launch p children) es=some w) :
    w.signUps.services.writes.Perm
      (w.signUps.unanswered++w.signUps.rejected++w.signUps.services.database) ∧
    w.node.pending=w.signUps.unanswered.map SignUps.Record.write ∧
    (∀r∈w.signUps.unanswered,w.node.get r.uid=some (.dictionary r.values)) ∧
    ∀uid,(∀r∈w.signUps.unanswered,r.uid≠uid) → w.node.get uid=w.node.server.lookup uid := by
  have hw : Coherent p w := run_coherent p children es w h
  have hlinked : w.node.pending=w.signUps.unanswered.map SignUps.Record.write := hw.linked
  refine ⟨hw.signUps.writes_perm hw.settled,hlinked,?_,?_⟩
  · intro r hr
    have hkeys : (w.node.pending.map Write.key).Nodup := by
      rw [hlinked,List.map_map]
      exact (List.filter_sublist.map SignUps.Record.uid).nodup hw.signUps.writes_uids
    exact w.node.get_pending r.write (hlinked ▸ List.mem_map_of_mem hr) hkeys
  · intro uid huid
    apply w.node.get_server uid
    intro x hx
    rw [hlinked] at hx
    obtain ⟨r,hr,rfl⟩ := List.mem_map.mp hx
    exact huid r hr

theorem records_settle_signedUp :
    ∃w r,(machine .plain).run (World.launch .plain ∅) (signedUp.map .signUp)=some w ∧
      w.signUps.unanswered=[r] ∧ w.node.get r.uid=some (.dictionary r.values) := by
  refine ⟨_,_,rfl,rfl,?_⟩
  exact (records_settle .plain ∅ (signedUp.map .signUp) _ rfl).2.2.1 _
    (by exact List.mem_singleton.mpr rfl)

end App

end ShareImage
