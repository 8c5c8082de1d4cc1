import ShareImage.SignUp.Invariant

namespace ShareImage.SignUps

open Framework

/-- Sign-up `i` was submitted with the email. -/
def World.carries (w : World) (email : String) (i : Nat) : Bool :=
  match w.flows[i]? with
  | some f => f.captured.email==email
  | none => false

theorem carries_iff (w : World) (email : String) (i : Nat) :
    w.carries email i=true ↔ ∃f,w.flows[i]?=some f ∧ f.captured.email=email := by
  unfold World.carries
  cases w.flows[i]? <;> simp

section Coherent

variable {lossy : Bool} {w : World} (hw : Coherent lossy w)
include hw

/-- Two sign-ups with one email do not both have an effect: each would have its account. -/
theorem Coherent.owner_unique (email : String) (i j : Nat)
    (hi : w.carries email i=true) (hj : w.carries email j=true)
    (hx : w.services.of i≠{}) (hy : w.services.of j≠{}) : i=j := by
  obtain ⟨f,hf,hfe⟩ := (carries_iff ..).mp hi
  obtain ⟨g,hg,hge⟩ := (carries_iff ..).mp hj
  obtain ⟨a,ha⟩ := List.exists_mem_of_ne_nil _ ((hw.reached i f hf).account hx)
  obtain ⟨b,hb⟩ := List.exists_mem_of_ne_nil _ ((hw.reached j g hg).account hy)
  obtain ⟨u,hau⟩ := (hw.reached i f hf).auth a ha
  obtain ⟨v,hbv⟩ := (hw.reached j g hg).auth b hb
  have same : a.email=b.email := by
    rw [hau,hbv]
    exact hfe.trans hge.symm
  have hab : a=b := List.inj_on_of_nodup_map hw.emails
    ((mem_own ..).mp ha).1 ((mem_own ..).mp hb).1 same
  calc
    i = a.flow := ((mem_own ..).mp ha).2.symm
    _ = b.flow := by rw [hab]
    _ = j := ((mem_own ..).mp hb).2

theorem Coherent.lengths (i : Nat) : (w.services.of i).auth.length≤1 ∧
    (w.services.of i).storage.length≤1 ∧ (w.services.of i).writes.length≤1 ∧
    (w.services.of i).database.length≤1 := by
  by_cases h : w.services.of i={}
  · simp [h]
  · obtain ⟨f,hf⟩ := hw.started i h
    exact (hw.reached i f hf).lengths

theorem Coherent.writes_of_database (r : Record) (hr : r∈w.services.database) :
    r∈w.services.writes := by
  have hmem : r∈(w.services.of r.flow).database := (mem_own ..).mpr ⟨hr,rfl⟩
  obtain ⟨f,hf⟩ := hw.started r.flow (w.services.of_ne_empty_of_database r hr)
  exact ((mem_own ..).mp ((hw.reached _ f hf).database r hmem)).1

/-- The record of a sign-up is passed on after its account and its image were made, and names
both. -/
theorem Coherent.writes (r : Record) (hr : r∈w.services.writes) :
    ∃f uid url,w.flows[r.flow]?=some f ∧ r=f.captured.record r.flow uid url ∧
      f.captured.account r.flow uid∈w.services.auth ∧
      f.captured.stored r.flow url∈w.services.storage := by
  have hmem : r∈(w.services.of r.flow).writes := (mem_own ..).mpr ⟨hr,rfl⟩
  obtain ⟨f,hf⟩ := hw.started r.flow (w.services.of_ne_empty_of_writes r hr)
  obtain ⟨uid,url,hrec,ha,ho⟩ := (hw.reached _ f hf).writes r hmem
  have hauth : f.captured.account r.flow uid∈(w.services.of r.flow).auth := by simp [ha]
  have hstorage : f.captured.stored r.flow url∈(w.services.of r.flow).storage := by simp [ho]
  exact ⟨f,uid,url,hf,hrec,((mem_own ..).mp hauth).1,((mem_own ..).mp hstorage).1⟩

/-- Of a log in which each sign-up has one entry at most, the sign-ups with one email have one
entry at most together. -/
theorem Coherent.one_for_email {Entry : Type} (flow : Entry → Nat) (log : List Entry)
    (email : String) (hone : ∀i,(own flow i log).length≤1)
    (heffect : ∀e∈log,w.services.of (flow e)≠{}) :
    log.countP (fun e => w.carries email (flow e))≤1 := by
  apply countP_le_one log _ hone
  intro a ha b hb hPa hPb
  exact hw.owner_unique email (flow a) (flow b) hPa hPb (heffect a ha) (heffect b hb)

end Coherent

/-- However often the button is tapped with one email, and whichever answers are lost, all those
sign-ups together make one account, one image and one record at most, and a record names the account
and the image. -/
theorem one_of_each_for_email (p : Platform) (es : List Event) (w : World) (email : String)
    (h : (machine p).run (World.launch p) es=some w) :
    w.services.auth.countP (fun a => w.carries email a.flow)≤1 ∧
    w.services.storage.countP (fun o => w.carries email o.flow)≤1 ∧
    w.services.writes.countP (fun r => w.carries email r.flow)≤1 ∧
    w.services.database.countP (fun r => w.carries email r.flow)≤1 ∧
    ∀r∈w.services.database,w.carries email r.flow=true →
      ∃a∈w.services.auth,a.email=email ∧ a.uid=r.uid ∧ a.flow=r.flow ∧
      ∃o∈w.services.storage,o.flow=r.flow ∧ ∃photoUID,
        r.values.string "photo UID"=some photoUID ∧ o.path=["profile_images",photoUID] := by
  have hw := run_coherent p es w h
  refine ⟨?_,?_,?_,?_,?_⟩
  · exact hw.one_for_email Account.flow _ email (fun i => (hw.lengths i).1)
      w.services.of_ne_empty_of_auth
  · exact hw.one_for_email StoredObject.flow _ email (fun i => (hw.lengths i).2.1)
      w.services.of_ne_empty_of_storage
  · exact hw.one_for_email Record.flow _ email (fun i => (hw.lengths i).2.2.1)
      w.services.of_ne_empty_of_writes
  · exact hw.one_for_email Record.flow _ email (fun i => (hw.lengths i).2.2.2)
      w.services.of_ne_empty_of_database
  · intro r hr hc
    obtain ⟨f,uid,url,hf,hrec,ha,ho⟩ := hw.writes r (hw.writes_of_database r hr)
    obtain ⟨g,hg,hge⟩ := (carries_iff ..).mp hc
    have hfg : f=g := Option.some.inj (hf.symm.trans hg)
    have huid : r.uid=uid := by rw [hrec]; rfl
    have hphoto : r.values.string "photo UID"=some f.captured.profileImageUID := by
      rw [hrec]
      rfl
    have hemail : f.captured.email=email := by
      rw [hfg]
      exact hge
    exact ⟨f.captured.account r.flow uid,ha,hemail,huid.symm,rfl,
      f.captured.stored r.flow url,ho,rfl,f.captured.profileImageUID,hphoto,rfl⟩

/-- Four taps with one email. The `createUser` of the first is refused, the second goes through,
but its last answer is lost; of the third and the fourth, from another screen, the first is refused
while the other waits. -/
def retried : List Event :=
  submission 0 {pixels := [7]} "a@x.org" "secret" "Ann Lee" "Ann" "U1"++
    [.tapSignUp 0 "U2",.answer 1 (.success "uid1"),.answer 0 (.failure "email in use"),
      .complete 0,.complete 1,.answer 1 (.success "https://i/1"),.complete 1,
      .answer 1 (.success ""),.complete 1,.answer 1 (.lost "" "timed out"),.complete 1]++
    (.tapSignUp 0 "U3"::submission 1 {pixels := [8]} "a@x.org" "other" "Ann" "ann" "U4")++
    [.answer 2 (.failure "email in use"),.complete 2]

theorem one_of_each_for_email_retried :
    ∃w,(machine .plain).run (World.launch .plain) retried=some w ∧ w.flows.length=4 ∧
      w.services.database.length=1 ∧
      w.services.auth.countP (fun a => w.carries "a@x.org" a.flow)≤1 := by
  refine ⟨_,rfl,rfl,rfl,?_⟩
  exact (one_of_each_for_email .plain retried _ "a@x.org" rfl).1

end ShareImage.SignUps
