import ShareImage.Search.World

namespace ShareImage.Search

open Framework

/-- The children that have appeared to the observer in a run: those present at its registration,
and then each child that was not there before. -/
def appearances (children : AList fun _ : String => AnyObject) (es : List Event) :
    List (String × AnyObject) :=
  machine.log World.appeared (World.launch children) es

/-- The user that the callback makes of a child, if its value is a dictionary. -/
def decode (child : String × AnyObject) : Option User := DataSnapshot.user ⟨child.1,child.2⟩

/-- What one event does. -/
theorem step_cases (w v : World) (e : Event) (h : w.step e=some v) :
    (e=.viewDidLoad ∧ w.observing=false ∧
      v={w with observing := true,queue := w.raise .viewDidLoad}) ∨
    (∃c node,e=.change c ∧ w.node.change c=some node ∧
      v={w with node := node,queue := w.raise (.change c)}) ∨
    (∃snapshot queue,e=.deliver ∧ w.queue=snapshot::queue ∧
      v={w with controller := w.controller.fetchUsers snapshot,queue := queue}) := by
  cases e with
  | viewDidLoad =>
    simp only [World.step] at h
    split at h
    · contradiction
    · rename_i hw
      exact .inl ⟨rfl,by simpa using hw,(Option.some.inj h).symm⟩
  | change c =>
    simp only [World.step] at h
    split at h
    · obtain ⟨node,hnode,hv⟩ := Option.map_eq_some_iff.mp h
      exact .inr (.inl ⟨c,node,rfl,hnode,hv.symm⟩)
    · contradiction
  | deliver =>
    simp only [World.step] at h
    split at h
    · contradiction
    · rename_i snapshot queue hq
      exact .inr (.inr ⟨snapshot,queue,rfl,hq,(Option.some.inj h).symm⟩)

/-- The list and the events still to deliver are one user for each appearance of a dictionary. -/
def Accounts (seen : List (String × AnyObject)) (w : World) : Prop :=
  w.controller.users++w.queue.filterMap DataSnapshot.user=seen.filterMap decode

theorem Accounts.raise {seen : List (String × AnyObject)} {w : World} (h : Accounts seen w)
    (e : Event) : w.controller.users++(w.raise e).filterMap DataSnapshot.user=
      (seen++w.appeared e).filterMap decode := by
  have hraise : (w.raise e).filterMap DataSnapshot.user=
      w.queue.filterMap DataSnapshot.user++(w.appeared e).filterMap decode := by
    rw [World.raise,List.filterMap_append,List.filterMap_map]
    rfl
  rw [hraise,List.filterMap_append,←List.append_assoc,h]

theorem step_accounts (seen : List (String × AnyObject)) (w v : World) (e : Event)
    (hw : Accounts seen w) (h : w.step e=some v) : Accounts (seen++w.appeared e) v := by
  rcases step_cases w v e h with ⟨rfl,_,rfl⟩ | ⟨c,node,rfl,_,rfl⟩ | ⟨snapshot,queue,rfl,hq,rfl⟩
  · exact hw.raise .viewDidLoad
  · exact hw.raise (.change c)
  · have hnone : w.appeared .deliver=[] := rfl
    have hdecode : w.queue.filterMap DataSnapshot.user=
        snapshot.user.toList++queue.filterMap DataSnapshot.user := by
      rw [hq,List.filterMap_cons]
      cases snapshot.user <;> rfl
    rw [Accounts,hdecode,←List.append_assoc] at hw
    rw [Accounts,hnone,List.append_nil,←hw,SearchTableViewController.fetchUsers_users]

theorem run_accounts (children : AList fun _ : String => AnyObject) (es : List Event) (w : World)
    (h : machine.run (World.launch children) es=some w) :
    Accounts (appearances children es) w := by
  have start : Accounts [] (World.launch children) := rfl
  apply machine.run_history (fun es w => Accounts (appearances children es) w) _ start _ es w h
  intro es u e t hu hacc hstep
  have hlog : appearances children (es++[e])=appearances children es++u.appeared e :=
    machine.log_concat World.appeared _ u es e hu
  rw [hlog]
  exact step_accounts _ u t e hacc hstep

/-- From the registration on, the event neither changes nor removes the child. -/
def Keeps (key : String) (w : World) (e : Event) : Prop :=
  ∀v value,w.observing=true → w.step e=some v → w.node.get key=some value →
    v.node.get key=some value

/-- A child that is never changed or removed has appeared once, with its present value. -/
def AppearedOnce (key : String) (seen : List (String × AnyObject)) (w : World) : Prop :=
  seen.filter (fun child => child.1==key)=if w.observing then w.node.entry key else []

theorem step_appearedOnce (key : String) (seen : List (String × AnyObject)) (w v : World)
    (e : Event) (hw : AppearedOnce key seen w) (hkeep : Keeps key w e) (h : w.step e=some v) :
    AppearedOnce key (seen++w.appeared e) v := by
  unfold AppearedOnce at hw ⊢
  rw [List.filter_append,hw]
  rcases step_cases w v e h with ⟨rfl,hw,rfl⟩ | ⟨c,node,rfl,hc,rfl⟩ | ⟨snapshot,queue,rfl,_,rfl⟩
  · have hentries : (w.appeared .viewDidLoad).filter (fun child => child.1==key)=
        w.node.entry key := by
      have hperm := (FUtilities.sortedByKey_perm w.node.entries).filter fun child => child.1==key
      rw [w.node.filter_entries key,Replica.entry] at hperm
      rw [Replica.entry]
      cases hget : w.node.get key with
      | none => exact (hget ▸ hperm).eq_nil
      | some value => exact (hget ▸ hperm).eq_singleton
    simp [hw,hentries]
  · cases hobs : w.observing with
    | false => simp [World.appeared,hc,hobs]
    | true =>
      have happ : (w.appeared (.change c)).filter (fun child => child.1==key)=
          Replica.appearing w.node node key := by
        simp only [World.appeared,hc,hobs,if_true]
        exact w.node.filter_appeared node c hc key
      have hentry : node.entry key=w.node.entry key++Replica.appearing w.node node key := by
        apply Replica.entry_change
        intro value hvalue
        exact hkeep _ value hobs h hvalue
      simp only [if_true,happ,hentry]
  · simp [World.appeared]

theorem run_appearedOnce (key : String) (children : AList fun _ : String => AnyObject)
    (es : List Event) (w : World) (h : machine.run (World.launch children) es=some w)
    (hkeep : machine.Meets (Keeps key) (World.launch children) es) :
    AppearedOnce key (appearances children es) w := by
  have start : AppearedOnce key [] (World.launch children) := rfl
  apply machine.run_history (fun es w => machine.Meets (Keeps key) (World.launch children) es →
    AppearedOnce key (appearances children es) w) _ (fun _ => start) _ es w h hkeep
  intro es u e t hu honce hstep hmeets
  obtain ⟨hes,he⟩ := machine.meets_concat (Keeps key) _ u es e hu hmeets
  have hlog : appearances children (es++[e])=appearances children es++u.appeared e :=
    machine.log_concat World.appeared _ u es e hu
  rw [hlog]
  exact step_appearedOnce key _ u t e (honce hes) he hstep

/-- The users with one uid are decoded from the children with that key. -/
theorem filter_decode (uid : String) (seen : List (String × AnyObject)) :
    ((seen.filterMap decode).filter fun user => user.uid==uid)=
      (seen.filter fun child => child.1==uid).filterMap decode := by
  induction seen with
  | nil => rfl
  | cons child seen ih =>
    cases hd : decode child with
    | none =>
      rw [List.filterMap_cons_none hd,ih]
      by_cases hk : child.1=uid
      · simp [hk,List.filterMap_cons_none hd]
      · simp [hk]
    | some user =>
      have hu : user.uid=child.1 := DataSnapshot.user_uid _ user hd
      rw [List.filterMap_cons_some hd,List.filter_cons,List.filter_cons,ih,hu]
      by_cases hk : child.1=uid
      · simp [hk,List.filterMap_cons_some hd]
      · simp [hk]

/-- A list that mirrors the node has no uid twice. -/
theorem World.Mirrors.nodup {w : World} (h : w.Mirrors) :
    (w.controller.users.map User.uid).Nodup := by
  rw [List.nodup_iff_count_le_one]
  intro uid
  have hcount : (w.controller.users.map User.uid).count uid=
      (w.controller.users.filter fun user => user.uid==uid).length := by
    rw [List.count_eq_countP,List.countP_map,List.countP_eq_length_filter]
    rfl
  have hlen : (w.mirrored uid).length≤1 := by
    unfold World.mirrored Replica.entry
    apply (List.length_filterMap_le ..).trans
    cases w.node.get uid <;> simp
  rw [hcount,h uid]
  exact hlen

/-- With all events delivered, the list has one user for each appearance of a child with a
dictionary, decoded from the value it appeared with. A child that has not been changed or removed
since the registration is mirrored, and so is the whole node if that holds of every child. -/
theorem users_of_appearances (children : AList fun _ : String => AnyObject) (es : List Event)
    (w : World) (h : machine.run (World.launch children) es=some w) (hobs : w.observing=true)
    (hqueue : w.queue=[]) :
    w.controller.users=(appearances children es).filterMap decode ∧
    (∀uid,machine.Meets (Keeps uid) (World.launch children) es →
      (w.controller.users.filter fun user => user.uid==uid)=w.mirrored uid) ∧
    ((∀uid,machine.Meets (Keeps uid) (World.launch children) es) →
      w.Mirrors ∧ (w.controller.users.map User.uid).Nodup) := by
  have hacc : Accounts (appearances children es) w := run_accounts children es w h
  have husers : w.controller.users=(appearances children es).filterMap decode := by
    rw [Accounts,hqueue] at hacc
    simpa using hacc
  have hkept : ∀uid,machine.Meets (Keeps uid) (World.launch children) es →
      (w.controller.users.filter fun user => user.uid==uid)=w.mirrored uid := by
    intro uid hkeep
    have honce := run_appearedOnce uid children es w h hkeep
    rw [AppearedOnce,hobs,if_pos rfl] at honce
    rw [husers,filter_decode,honce]
    rfl
  refine ⟨husers,hkept,?_⟩
  intro hall
  have hmirrors : w.Mirrors := fun uid => hkept uid (hall uid)
  exact ⟨hmirrors,hmirrors.nodup⟩

def ann : AnyObject := .dictionary [("username",.string "ann"),("fullname",.string "Ann Lee")]

def bob : AnyObject := .dictionary [("username",.string "bob"),("fullname",.string "Bob Ray")]

/-- A record of the client's own is shown at once, and the server rejects it later. -/
def rejected : List Event :=
  [.viewDidLoad,.deliver,.change (.submit ⟨"uid2",some bob⟩),.deliver,.change .reject]

theorem users_of_appearances_rejected :
    ∃w,machine.run (World.launch (AList.singleton "uid1" ann)) rejected=some w ∧
      w.controller.users=[⟨"ann","Ann Lee",none,"uid1"⟩,⟨"bob","Bob Ray",none,"uid2"⟩] ∧
      (w.controller.users.filter fun user => user.uid=="uid1")=w.mirrored "uid1" := by
  refine ⟨_,rfl,rfl,?_⟩
  have kept : machine.Meets (Keeps "uid1") (World.launch (AList.singleton "uid1" ann))
      rejected := by
    refine ⟨?_,?_,?_,?_,?_,trivial⟩
    all_goals
      intro v value _ hstep hget
      cases hstep
      exact hget
  exact (users_of_appearances _ rejected _ rfl rfl rfl).2.1 "uid1" kept

/-- A child that is removed and comes back is in the list twice. -/
def readded : List Event :=
  [.viewDidLoad,.deliver,.change (.report ⟨"uid1",none⟩),.change (.report ⟨"uid1",some ann⟩),
    .deliver]

theorem not_mirrors : ¬∀(children : AList fun _ : String => AnyObject) (es : List Event)
    (w : World),machine.run (World.launch children) es=some w → w.observing=true →
    w.queue=[] → w.Mirrors := by
  intro h
  have hmirrors := h (AList.singleton "uid1" ann) readded _ rfl rfl rfl
  exact absurd hmirrors.nodup (by decide)

end ShareImage.Search
