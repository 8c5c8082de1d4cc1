import ShareImage.SignUp.Invariant

namespace ShareImage.SignUps

open Framework

/-- All effects of `s` are still there, in their order. -/
structure Services.Before (s t : Services) : Prop where
  auth : s.auth<+:t.auth
  storage : s.storage<+:t.storage
  writes : s.writes<+:t.writes
  database : s.database<+:t.database

namespace Services

theorem Before.refl (s : Services) : s.Before s :=
  ⟨List.prefix_refl _,List.prefix_refl _,List.prefix_refl _,List.prefix_refl _⟩

theorem Before.trans {s t u : Services} (hst : s.Before t) (htu : t.Before u) : s.Before u :=
  ⟨hst.auth.trans htu.auth,hst.storage.trans htu.storage,hst.writes.trans htu.writes,
    hst.database.trans htu.database⟩

theorem before_append (s t : Services) : s.Before (s++t) :=
  ⟨List.prefix_append ..,List.prefix_append ..,List.prefix_append ..,List.prefix_append ..⟩

end Services

theorem step_before (p : Platform) (w v : World) (e : Event) (h : w.step p e=some v) :
    w.services.Before v.services := by
  rcases step_cases p w v e h with hq | ⟨n,uuid,_,_,_,rfl⟩ | ⟨i,f,next,_,rfl,_⟩
  · rw [hq.services]
    exact .refl _
  · exact .refl _
  · exact Services.before_append ..

theorem run_before (p : Platform) (w v : World) (es : List Event)
    (h : (machine p).run w es=some v) : w.services.Before v.services := by
  apply (machine p).run_relates (fun w v => w.services.Before v.services)
    (fun w => Services.Before.refl _) (fun _ _ _ => Services.Before.trans) _ w v es h
  intro u e t hstep
  exact step_before p u t e hstep

/-- Nothing but the object itself is ever put at its path. -/
theorem Coherent.object_at {lossy : Bool} {w : World} (hw : Coherent lossy w) (o : StoredObject)
    (ho : o∈w.services.storage) : w.services.object o.path=some o := by
  obtain ⟨f,uid,url,hf,heq,_⟩ := hw.storage o ho
  have hpath : o.path=f.captured.storageRef := by
    rw [heq]
    rfl
  have hown : o∈(w.services.of o.flow).storage := (mem_own ..).mpr ⟨ho,rfl⟩
  have hone : (w.services.of o.flow).storage.length≤1 := (hw.reached o.flow f hf).lengths.2.1
  cases hlast : w.services.object o.path with
  | none =>
    rw [Services.object,List.getLast?_eq_none_iff,List.filter_eq_nil_iff] at hlast
    exact absurd (beq_self_eq_true _) (hlast o ho)
  | some x =>
    have hx : x∈(w.services.of o.flow).storage := hw.object_own o.flow f hf x (hpath ▸ hlast)
    have hxo : x=o := by
      obtain ⟨y,hy⟩ := List.length_eq_one_iff.mp
        (le_antisymm hone (List.length_pos_of_mem hown))
      rw [hy] at hx hown
      rw [List.mem_singleton.mp hx,List.mem_singleton.mp hown]
    rw [hxo]

/-- The services only gain: accounts, objects, writes and records stay, in their order. An object is
served at its path from when it is stored, and in every later state it is that object; no sign-up
overwrites the photo of another, or its own. -/
theorem effects_stay (p : Platform) (pre es : List Event) (w v : World)
    (hpre : (machine p).run (World.launch p) pre=some w) (h : (machine p).run w es=some v) :
    w.services.Before v.services ∧
    ∀o∈w.services.storage,w.services.object o.path=some o ∧ v.services.object o.path=some o := by
  have hwhole : (machine p).run (World.launch p) (pre++es)=some v := by
    rw [Machine.run_append,hpre]
    exact h
  have hbefore := run_before p w v es h
  refine ⟨hbefore,?_⟩
  intro o ho
  have hlater : o∈v.services.storage := hbefore.storage.subset ho
  exact ⟨(run_coherent p pre w hpre).object_at o ho,(run_coherent p _ v hwhole).object_at o hlater⟩

/-- Two taps of the same form: both photos are stored, under different paths. -/
def storedTwice : List Event :=
  submission 0 {pixels := [7]} "a@x.org" "secret" "Ann Lee" "Ann" "U1"++
    [.answer 0 (.success "uid1"),.complete 0,.answer 0 (.success "https://i/1"),
      .editSignUp 0 .email "b@x.org",.pickPhoto 0 (some {pixels := [8]}),.tapSignUp 0 "U2",
      .answer 1 (.success "uid2"),.complete 1,.answer 1 (.success "https://i/2")]

theorem effects_stay_storedTwice :
    ∃w v,(machine .plain).run (World.launch .plain) (storedTwice.take 9)=some w ∧
      (machine .plain).run w (storedTwice.drop 9)=some v ∧ v.services.storage.length=2 ∧
      ∃o∈w.services.storage,v.services.object o.path=some o := by
  refine ⟨_,_,rfl,rfl,rfl,_,List.mem_singleton.mpr rfl,?_⟩
  exact ((effects_stay .plain (storedTwice.take 9) (storedTwice.drop 9) _ _ rfl rfl).2 _
    (List.mem_singleton.mpr rfl)).2

end ShareImage.SignUps
