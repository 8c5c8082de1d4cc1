import ShareImage.SignUp.Progress
import ShareImage.SignUp.Form

namespace ShareImage.SignUps

open Framework

/-- What holds of the sign-ups in every reachable state, and what in those that are reached without
a lost answer. -/
structure Coherent (lossy : Bool) (w : World) : Prop where
  reached : ∀i (f : Flow),w.flows[i]?=some f → f.Reached lossy i (w.services.of i)
  unstarted : ∀i,w.flows.length≤ i → w.services.of i={}
  emails : (w.services.auth.map Account.email).Nodup
  uids : (w.services.auth.map Account.uid).Nodup
  uuids : (w.flows.map fun f => f.captured.profileImageUID).Nodup
  generated : ∀f∈w.flows,f.captured.profileImageUID∈w.uuids

/-- What the tap appends: the one sign-up that `handleSignUp` starts, if it gets that far. -/
theorem tapSignUp_flows (p : Platform) (w : World) (n : Nat) (uuid : String) :
    ((w.tapSignUp p n uuid).flows=w.flows ∧ (w.signUp n).handleSignUp p uuid=none) ∨
    ∃c,(w.signUp n).handleSignUp p uuid=some c ∧
      (w.tapSignUp p n uuid).flows=w.flows++[{captured := c}] := by
  unfold World.tapSignUp
  cases hc : (w.signUp n).handleSignUp p uuid with
  | none => exact .inl ⟨by simp,rfl⟩
  | some c => exact .inr ⟨c,rfl,by simp⟩

/-- A sign-up that is there after a tap was there before, or is the one that the tap starts. -/
theorem tapSignUp_flow (p : Platform) (w : World) (n : Nat) (uuid : String) (i : Nat) (g : Flow)
    (hg : (w.tapSignUp p n uuid).flows[i]?=some g) : w.flows[i]?=some g ∨
    (i=w.flows.length ∧ ∃c,(w.signUp n).handleSignUp p uuid=some c ∧ g={captured := c}) := by
  rcases tapSignUp_flows p w n uuid with ⟨hflows,_⟩ | ⟨c,hc,hflows⟩
  · rw [hflows] at hg
    exact .inl hg
  · rw [hflows] at hg
    rcases lt_trichotomy i w.flows.length with hlt | heq | hgt
    · rw [List.getElem?_append_left hlt] at hg
      exact .inl hg
    · subst heq
      have hnew : g={captured := c} := by simpa using hg.symm
      exact .inr ⟨rfl,c,hc,hnew⟩
    · have hnone : (w.flows++[({captured := c} : Flow)])[i]?=none := by
        apply List.getElem?_eq_none
        simp
        omega
      rw [hnone] at hg
      contradiction

/-- A step of a sign-up changes nothing that any sign-up captured. -/
theorem advance_flow (w : World) (j i : Nat) (x g : Flow) (next : Flow × Services)
    (hx : w.flows[j]?=some x) (hcap : next.1.captured=x.captured)
    (hg : (w.advance j next).flows[i]?=some g) :
    ∃f,w.flows[i]?=some f ∧ f.captured=g.captured := by
  change (w.flows.set j next.1)[i]?=some g at hg
  by_cases hji : j=i
  · subst hji
    have hlt : j<w.flows.length := (List.getElem?_eq_some_iff.mp hx).1
    have hnew : next.1=g := by simpa [hlt] using hg
    exact ⟨x,hx,by rw [←hcap,hnew]⟩
  · rw [List.getElem?_set_ne hji] at hg
    exact ⟨g,hg,rfl⟩

theorem launch_coherent (lossy : Bool) (p : Platform) : Coherent lossy (World.launch p) where
  reached := by simp [World.launch]
  unstarted := fun _ _ => rfl
  emails := by simp [World.launch]
  uids := by simp [World.launch]
  uuids := by simp [World.launch]
  generated := by simp [World.launch]

section Coherent

variable {lossy : Bool} {w : World} (hw : Coherent lossy w)
include hw

theorem Coherent.congr (v : World) (hf : v.flows=w.flows) (hs : v.services=w.services)
    (hu : v.uuids=w.uuids) : Coherent lossy v := by
  refine ⟨?_,?_,?_,?_,?_,?_⟩
  · rw [hf,hs]
    exact hw.reached
  · rw [hf,hs]
    exact hw.unstarted
  · rw [hs]
    exact hw.emails
  · rw [hs]
    exact hw.uids
  · rw [hf]
    exact hw.uuids
  · rw [hf,hu]
    exact hw.generated

/-- Every effect is that of a sign-up that has started. -/
theorem Coherent.started (i : Nat) (h : w.services.of i≠{}) : ∃f,w.flows[i]?=some f := by
  by_contra hn
  have hlen : w.flows.length≤ i := by
    by_contra hlt
    exact hn ⟨w.flows[i],List.getElem?_eq_getElem (by omega)⟩
  exact h (hw.unstarted i hlen)

theorem Coherent.storage (o : StoredObject) (ho : o∈w.services.storage) :
    ∃f uid url,w.flows[o.flow]?=some f ∧ o=f.captured.stored o.flow url ∧
      (w.services.of o.flow).auth=[f.captured.account o.flow uid] := by
  have hmem : o∈(w.services.of o.flow).storage := (mem_own ..).mpr ⟨ho,rfl⟩
  obtain ⟨f,hf⟩ := hw.started o.flow (w.services.of_ne_empty_of_storage o ho)
  obtain ⟨uid,url,hc,ha⟩ := (hw.reached _ f hf).storage o hmem
  exact ⟨f,uid,url,hf,hc,ha⟩

/-- UUIDs are fresh, so no two sign-ups share one. -/
theorem Coherent.uuid_injective (i j : Nat) (f g : Flow) (hf : w.flows[i]?=some f)
    (hg : w.flows[j]?=some g)
    (h : f.captured.profileImageUID=g.captured.profileImageUID) : i=j := by
  have hi : (w.flows.map fun f => f.captured.profileImageUID)[i]?=
      some f.captured.profileImageUID := by simp [hf]
  have hj : (w.flows.map fun f => f.captured.profileImageUID)[j]?=
      some f.captured.profileImageUID := by simp [hg,h]
  have hlen : i<(w.flows.map fun f => f.captured.profileImageUID).length :=
    (List.getElem?_eq_some_iff.mp hi).1
  exact (List.getElem?_inj hlen hw.uuids).mp (hi.trans hj.symm)

/-- The path of a sign-up holds nothing but its own object. -/
theorem Coherent.object_own (i : Nat) (f : Flow) (hf : w.flows[i]?=some f) (o : StoredObject)
    (ho : w.services.object f.captured.storageRef=some o) :
    o∈(w.services.of i).storage := by
  have hmem := List.mem_of_getLast? ho
  simp only [List.mem_filter,beq_iff_eq] at hmem
  obtain ⟨g,uid,url,hg,heq,_⟩ := hw.storage o hmem.1
  have hpath : g.captured.storageRef=f.captured.storageRef := by
    rw [←hmem.2,heq]
    rfl
  have hid : f.captured.profileImageUID=g.captured.profileImageUID := by
    simpa [SignUp.storageRef] using hpath.symm
  exact (mem_own ..).mpr ⟨hmem.1,(hw.uuid_injective i o.flow f g hf hg hid).symm⟩

theorem Coherent.tap (p : Platform) (n : Nat) (uuid : String) (hu : uuid∉w.uuids) :
    Coherent lossy (w.tapSignUp p n uuid) := by
  have hs : (w.tapSignUp p n uuid).services=w.services := rfl
  have hids : (w.tapSignUp p n uuid).uuids=w.uuids++[uuid] := rfl
  have hgen : ∀f∈w.flows,f.captured.profileImageUID≠uuid :=
    fun f hf he => hu (he ▸ hw.generated f hf)
  rcases tapSignUp_flows p w n uuid with ⟨hflows,_⟩ | ⟨c,hc,hflows⟩
  · refine ⟨?_,?_,hw.emails,hw.uids,?_,?_⟩ <;> rw [hflows]
    · exact hw.reached
    · exact hw.unstarted
    · exact hw.uuids
    · intro f hf
      rw [hids]
      exact List.mem_append_left _ (hw.generated f hf)
  · obtain ⟨_,_,_,_,_,_,_,_,_,huuid⟩ := (w.signUp n).handleSignUp_captured p uuid c hc
    refine ⟨?_,?_,hw.emails,hw.uids,?_,?_⟩ <;> rw [hflows]
    · intro i f hf
      rw [←hflows] at hf
      rw [hs]
      rcases tapSignUp_flow p w n uuid i f hf with hold | ⟨rfl,c',_,rfl⟩
      · exact hw.reached i f hold
      · rw [hw.unstarted _ le_rfl]
        exact .creating
    · intro i hi
      exact hw.unstarted i (by simp at hi; omega)
    · apply nodup_map_concat _ _ _ hw.uuids
      intro f hf
      rw [huuid]
      exact hgen f hf
    · intro f hf
      rw [hids]
      rcases List.mem_append.mp hf with hf | hf
      · exact List.mem_append_left _ (hw.generated f hf)
      · have hnew : f={captured := c} := by simpa using hf
        simp [hnew,huuid]

theorem Coherent.advance (i : Nat) (f : Flow) (next : Flow × Services) (hf : w.flows[i]?=some f)
    (ha : Advances lossy i f (w.services.of i) next)
    (hauth : next.2.auth=[] ∨ ∃uid,next.2.auth=[f.captured.account i uid] ∧
      ∀a∈w.services.auth,a.email≠f.captured.email ∧ a.uid≠uid) :
    Coherent lossy (w.advance i next) := by
  have hi : i<w.flows.length := (List.getElem?_eq_some_iff.mp hf).1
  have hself : (w.services++next.2).of i=w.services.of i++next.2 := by
    rw [Services.of_append,Services.of_self i _ ha.owned]
  have hother (j : Nat) (hj : i≠j) : (w.services++next.2).of j=w.services.of j := by
    rw [Services.of_append,Services.of_other i j hj _ ha.owned,Services.append_empty]
  have hcap : (w.flows.set i next.1).map (fun f => f.captured.profileImageUID)=
      w.flows.map fun f => f.captured.profileImageUID := by
    rw [List.map_set,ha.captured]
    apply List.ext_getElem?
    intro j
    rw [List.getElem?_set]
    split
    · rename_i hij
      subst hij
      have hget : w.flows[i]=f := (List.getElem?_eq_some_iff.mp hf).2
      simp [hi,hget]
    · rfl
  refine ⟨?_,?_,?_,?_,?_,?_⟩
  · intro j g hg
    change (w.flows.set i next.1)[j]?=some g at hg
    change g.Reached lossy j ((w.services++next.2).of j)
    by_cases hij : i=j
    · subst hij
      have hnew : next.1=g := by simpa [hi] using hg
      rw [hself,←hnew]
      exact ha.reached
    · rw [List.getElem?_set_ne hij] at hg
      rw [hother j hij]
      exact hw.reached j g hg
  · intro j hj
    have hj' : w.flows.length≤j := by simpa [World.advance] using hj
    change (w.services++next.2).of j={}
    rw [hother j (by omega)]
    exact hw.unstarted j hj'
  · change ((w.services++next.2).auth.map Account.email).Nodup
    rw [Services.append_auth]
    rcases hauth with hnone | ⟨uid,hone,hnew⟩
    · rw [hnone,List.append_nil]
      exact hw.emails
    · rw [hone]
      exact nodup_map_concat Account.email _ _ hw.emails fun a ha => (hnew a ha).1
  · change ((w.services++next.2).auth.map Account.uid).Nodup
    rw [Services.append_auth]
    rcases hauth with hnone | ⟨uid,hone,hnew⟩
    · rw [hnone,List.append_nil]
      exact hw.uids
    · rw [hone]
      exact nodup_map_concat Account.uid _ _ hw.uids fun a ha => (hnew a ha).2
  · change ((w.flows.set i next.1).map fun f => f.captured.profileImageUID).Nodup
    rw [hcap]
    exact hw.uuids
  · intro g hg
    have hmem : g.captured.profileImageUID∈
        (w.flows.set i next.1).map fun f => f.captured.profileImageUID :=
      List.mem_map_of_mem hg
    rw [hcap] at hmem
    obtain ⟨x,hx,hxg⟩ := List.mem_map.mp hmem
    exact hxg ▸ hw.generated x hx

end Coherent

theorem step_coherent (lossy : Bool) (p : Platform) (w : World) (e : Event) (v : World)
    (hw : Coherent lossy w) (he : e.loses=true → lossy=true) (h : w.step p e=some v) :
    Coherent lossy v := by
  rcases step_cases p w v e h with hq | ⟨n,uuid,_,_,hu,rfl⟩ | ⟨i,f,next,hf,rfl,hstep⟩
  · exact hw.congr v hq.flows hq.services hq.uuids
  · exact hw.tap p n uuid hu
  · rcases hstep with ⟨outcome,rfl,ha⟩ | ⟨_,hc⟩
    · exact hw.advance i f next hf
        (answer_advances lossy w.services i f outcome next he (hw.reached i f hf)
          (hw.object_own i f hf) ha)
        (answer_auth w.services i f outcome next ha)
    · exact hw.advance i f next hf (complete_advances lossy i f _ next (hw.reached i f hf) hc)
        (.inl (complete_auth i f next hc))

theorem run_coherent (p : Platform) (es : List Event) (w : World)
    (h : (machine p).run (World.launch p) es=some w) : Coherent true w :=
  (machine p).run_invariant (Coherent true)
    (fun w e v hw hstep => step_coherent true p w e v hw (fun _ => rfl) hstep) (World.launch p) w es
    (launch_coherent true p) h

/-- In a run without a lost answer no effect is there that was reported as failed. -/
theorem run_coherent_of_none_lost (p : Platform) (es : List Event) (w : World)
    (h : (machine p).run (World.launch p) es=some w) (hes : ∀e∈es,e.loses=false) :
    Coherent false w := by
  apply (machine p).run_invariant_of_mem (Coherent false) (World.launch p) w es _
    (launch_coherent false p) h
  intro u e v he hu hstep
  refine step_coherent false p u e v hu ?_ hstep
  intro hloses
  rw [hes e he] at hloses
  contradiction

end ShareImage.SignUps
