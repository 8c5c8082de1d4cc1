import ShareImage.App.Listing
import ShareImage.Database.Update

namespace ShareImage.App

open Framework

/-- What the event is to the client of the database. -/
def World.changes (w : World) : Event → List (Replica.Change String AnyObject)
  | .signUp e => (w.signUps.change e).toList
  | .report x => [.report x]
  | .table _ => []

theorem step_changes (p : Platform) (w v : World) (e : Event) (h : w.step p e=some v) :
    (⟨Replica.change⟩ : Machine Search.Users _).run w.node (w.changes e)=some v.node := by
  cases step_node p w v e h with
  | signUp e _ hchange hnode =>
    rw [World.changes,hchange,hnode]
    rfl
  | change e c _ hchange hnode =>
    rw [World.changes,hchange,Option.toList_some,Machine.run_singleton]
    exact hnode
  | report x _ hnode =>
    rw [World.changes,Machine.run_singleton]
    exact hnode
  | table e _ hnode => exact congrArg some hnode.symm

section Client

variable (p : Platform) (children : AList fun _ : String => AnyObject) (es : List Event) (w : World)
  (h : (machine p).run (World.launch p children) es=some w)
include h

/-- Over the data that the server had at the start, the client keeps to the copy of `users`. -/
theorem run_client {Leaf : Type} (nodeFrom : AnyObject → FNode String Leaf) (n : FNode String Leaf)
    (hn : FRepo.Shows ["users"] nodeFrom n children) :
    ∃r : FRepo String Leaf,(FRepo.machine ["users"] nodeFrom).run {serverCache := n}
        ((machine p).log World.changes (World.launch p children) es)=some r ∧
      r.Mirrors ["users"] nodeFrom w.node := by
  have hnode := (machine p).run_simulates ⟨Replica.change⟩ World.node World.changes
    (fun w e v hstep => step_changes p w v e hstep) _ w es h
  have hrun := (FRepo.Mirrors.launch hn).run
    ((machine p).log World.changes (World.launch p children) es)
  rw [show (⟨Replica.change⟩ : Machine Search.Users _).run {server := children} _=some w.node
    from hnode] at hrun
  generalize (FRepo.machine ["users"] nodeFrom).run {serverCache := n} _=final at hrun ⊢
  cases hrun with
  | some hmirrors => exact ⟨_,rfl,hmirrors⟩

end Client

/-- The values of a sign-up make a node, and the node gives them back. -/
theorem node_of_values (c : SignUp) (url : URL)
    (hsize : ∀key text,(key,AnyObject.string text)∈c.dictionaryValues url.absoluteString →
      text.utf8ByteSize ≤ FSnapshot.kFirebaseMaxLeafSize) :
    ∃x entries,FSnapshot.nodeFrom (.dictionary (c.dictionaryValues url.absoluteString)) 0=some x ∧
      FSnapshot.val x=.dictionary entries ∧
      ∀key,entries.lookup key=(c.dictionaryValues url.absoluteString).lookup key := by
  have hvalues : c.dictionaryValues url.absoluteString=FSnapshot.strings
      [("photo UID",c.profileImageUID),("profileImageUrl",url.absoluteString),("email",c.email),
        ("password",c.password),("fullname",c.fullName),("username",c.username)] := rfl
  rw [hvalues] at hsize ⊢
  have hstring : FSnapshot.keyAsNum "photo UID"=none := by decide
  exact FSnapshot.val_strings (by simp; decide) (by simp; decide)
    (fun e he => hsize e.1 e.2 (List.mem_map_of_mem he)) ⟨_,List.mem_cons_self,hstring⟩

theorem user_of_val (c : SignUp) (url : URL) (uid : String)
    (hsize : ∀key text,(key,AnyObject.string text)∈c.dictionaryValues url.absoluteString →
      text.utf8ByteSize ≤ FSnapshot.kFirebaseMaxLeafSize) :
    DataSnapshot.user ⟨uid,FSnapshot.val
        (FSnapshot.node (.dictionary (c.dictionaryValues url.absoluteString)))⟩=
      some (User.init uid (c.dictionaryValues url.absoluteString)) := by
  obtain ⟨x,entries,hx,hval,hlookup⟩ := node_of_values c url hsize
  rw [FSnapshot.node,hx,Option.getD_some,hval]
  exact congrArg some (User.init_congr uid _ _ fun key _ => hlookup key)

/-- What the client writes itself is the record of a sign-up. -/
theorem written_of_changes (p : Platform) (w v : World) (e : Event) (hw : Coherent p w)
    (h : w.step p e=some v) (c : Replica.Change String AnyObject) (hc : c∈w.changes e) :
    (∃r∈v.signUps.services.writes,c=.submit r.write) ∨ FSnapshot.Passes c := by
  cases e with
  | report x =>
    rw [List.mem_singleton.mp hc]
    exact .inr trivial
  | table e => contradiction
  | signUp e =>
    have hchange : w.signUps.change e=some c := Option.mem_toList.mp hc
    have hsettled := unsettled_of_allowed p w e (step_components p w v _ h).1
    cases SignUps.step_syncs true p w.signUps v.signUps e hw.signUps hsettled
      (step_signUps p w v e h) with
    | quiet e hquiet =>
      rw [hquiet] at hchange
      contradiction
    | sends e r hsend hwrites =>
      refine .inl ⟨r,by simp [hwrites],?_⟩
      exact Option.some.inj (hchange.symm.trans hsend)
    | answered i f outcome d _ _ hanswer hd =>
      have hsame : c=d := Option.some.inj (hchange.symm.trans hanswer)
      subst hsame
      rcases hd with rfl | ⟨rfl,_⟩ <;> exact .inr trivial

/-- A record within the size limit, under a uid that is a key, passes the checks. -/
theorem record_passes {lossy : Bool} {w : SignUps.World} (hw : SignUps.Coherent lossy w)
    (r : SignUps.Record) (hr : r∈w.services.writes) (huid : FSnapshot.isValidKey r.uid=true)
    (hsize : ∀key text,(key,AnyObject.string text)∈r.values →
      text.utf8ByteSize ≤ FSnapshot.kFirebaseMaxLeafSize) :
    FSnapshot.Passes (.submit r.write) := by
  obtain ⟨f,uid,url,_,hrec,_⟩ := hw.writes r hr
  have hvalues : r.values=f.captured.dictionaryValues url.absoluteString := by rw [hrec]; rfl
  rw [hvalues] at hsize
  obtain ⟨x,_,hx,_⟩ := node_of_values f.captured url hsize
  refine ⟨huid,.dictionary r.values,rfl,?_,?_⟩
  · rw [hvalues]
    rfl
  · rw [hvalues,hx]
    rfl

/-- The client takes whatever the app writes to `users`. Its trees give the screens what they read,
and wait for the records that the database has not answered for. -/
theorem users_of_client (p : Platform) (children : AList fun _ : String => AnyObject)
    (es : List Event) (w : World) (h : (machine p).run (World.launch p children) es=some w)
    (huids : ∀r∈w.signUps.services.writes,FSnapshot.isValidKey r.uid=true)
    (hsize : ∀r∈w.signUps.services.writes,∀key text,(key,AnyObject.string text)∈r.values →
      text.utf8ByteSize ≤ FSnapshot.kFirebaseMaxLeafSize)
    (n : FNode String FLeaf) (hn : FRepo.Shows ["users"] FSnapshot.node n children) :
    ∃repo,(FSnapshot.machine ["users"]).run {serverCache := n}
        ((machine p).log World.changes (World.launch p children) es)=some repo ∧
      repo.pendingWriteTree.allWrites.map FWriteRecord.pieces=w.signUps.unanswered.map
        (fun r => [(["users",r.uid],FSnapshot.node (.dictionary r.values))]) ∧
      ∀uid,repo.eventCache ["users",uid]=
        some ((w.table.search.node.get uid).elim .emptyNode FSnapshot.node) := by
  have hw : Coherent p w := run_coherent p children es w h
  obtain ⟨repo,hrepo,hmirrors⟩ := run_client p children es w h FSnapshot.node n hn
  refine ⟨repo,?_,?_,fun uid => hmirrors.eventCache uid⟩
  · rw [FSnapshot.run_passes,hrepo]
    intro c hc
    obtain ⟨pre,e,post,u,v,_,hpre,hstep,hpost,hout⟩ := (machine p).mem_log _ _ w es h c hc
    rcases written_of_changes p u v e (run_coherent p children pre u hpre) hstep c hout with
      ⟨r,hr,rfl⟩ | hpasses
    · have hlater : r∈w.signUps.services.writes :=
        (SignUps.run_before p _ _ _ (run_signUps p v w post hpost)).writes.subset hr
      exact record_passes hw.signUps r hlater (huids r hlater) (hsize r hlater)
    · exact hpasses
  · have hlinked : w.node.pending=w.signUps.unanswered.map SignUps.Record.write := hw.linked
    rw [hmirrors.pending,hlinked,List.map_map]
    rfl

/-- A record that the database has not refused is read back of the client's trees as it was filled
in, before the database has answered and after. -/
theorem sign_up_read_back (p : Platform) (children : AList fun _ : String => AnyObject)
    (es : List Event) (w : World) (r : SignUps.Record)
    (h : (machine p).run (World.launch p children) es=some w)
    (hr : r∈w.signUps.services.writes) (haccepted : r∉w.signUps.rejected)
    (hchildren : children.lookup r.uid=none) (hreports : ∀x,Event.report x∈es → x.key≠r.uid)
    (hsize : ∀key text,(key,AnyObject.string text)∈r.values →
      text.utf8ByteSize ≤ FSnapshot.kFirebaseMaxLeafSize)
    (n : FNode String FLeaf) (hn : FRepo.Shows ["users"] FSnapshot.node n children) :
    ∃repo f url x,(FRepo.machine ["users"] FSnapshot.node).run {serverCache := n}
        ((machine p).log World.changes (World.launch p children) es)=some repo ∧
      w.signUps.flows[r.flow]?=some f ∧ repo.eventCache ["users",r.uid]=some x ∧
      DataSnapshot.user ⟨r.uid,FSnapshot.val x⟩=some (f.captured.user r.uid url) := by
  have hw : Coherent p w := run_coherent p children es w h
  have hkept := not_refused p children es w r h hr haccepted
  obtain ⟨f,uid,url,hf,hrec,_⟩ := hw.signUps.writes r hr
  have hvalues : r.values=f.captured.dictionaryValues url.absoluteString := by rw [hrec]; rfl
  have hget : w.node.get r.uid=some (.dictionary r.values) :=
    (run_holds p children r.uid hchildren es w h hkept hreports).trans
      (hw.signUps.written_of_mem r hr)
  obtain ⟨repo,hrepo,hmirrors⟩ := run_client p children es w h FSnapshot.node n hn
  have hread := hmirrors.eventCache r.uid
  rw [hget] at hread
  refine ⟨repo,f,url,_,hrepo,hf,hread,?_⟩
  rw [hvalues] at hsize
  rw [←f.captured.init_dictionaryValues,FRepo.childNode,Option.elim_some,hvalues]
  exact user_of_val f.captured url r.uid hsize

theorem signedUp_sized (key text : String) (h : (key,AnyObject.string text)∈
    [("photo UID",AnyObject.string "U1"),("profileImageUrl",.string "https://i/1"),
      ("email",.string "a@x.org"),("password",.string "secret"),("fullname",.string "Ann Lee"),
      ("username",.string "ann")]) : text.utf8ByteSize ≤ FSnapshot.kFirebaseMaxLeafSize := by
  simp only [List.mem_cons,Prod.mk.injEq,AnyObject.string.injEq,List.not_mem_nil,or_false] at h
  rcases h with ⟨_,rfl⟩ | ⟨_,rfl⟩ | ⟨_,rfl⟩ | ⟨_,rfl⟩ | ⟨_,rfl⟩ | ⟨_,rfl⟩ <;> decide

/-- While a sign-up is unanswered its record is read of the pending write. -/
theorem users_of_client_signedUp :
    ∃w,∃repo : FRepo String FLeaf,
      (machine .plain).run (World.launch .plain ∅) (signedUp.map .signUp)=some w ∧
      repo.pendingWriteTree.allWrites.map FWriteRecord.pieces=w.signUps.unanswered.map
        (fun r => [(["users",r.uid],FSnapshot.node (.dictionary r.values))]) ∧
      w.signUps.unanswered.map SignUps.Record.uid=["uid1"] := by
  obtain ⟨repo,_,hpending,_⟩ := users_of_client .plain ∅ (signedUp.map .signUp) _ rfl
    (by
      intro r hr
      rw [List.mem_singleton.mp hr]
      rfl)
    (by
      intro r hr
      rw [List.mem_singleton.mp hr]
      exact signedUp_sized)
    .emptyNode
    ⟨fun s _ => FImmutableTree.empty_valueAtPath s,fun key => FNode.getChild_emptyNode _⟩
  exact ⟨_,repo,rfl,hpending,rfl⟩

theorem sign_up_read_back_signedUp :
    ∃w r,∃repo : FRepo String FLeaf,∃x,
      (machine .plain).run (World.launch .plain ∅) (signedUp.map .signUp)=some w ∧
      w.signUps.services.writes=[r] ∧ repo.eventCache ["users",r.uid]=some x ∧
      ∃f url,w.signUps.flows[r.flow]?=some f ∧
        DataSnapshot.user ⟨r.uid,FSnapshot.val x⟩=some (f.captured.user r.uid url) := by
  have h := sign_up_read_back .plain ∅ (signedUp.map .signUp) _ _ rfl
    (by exact List.mem_singleton.mpr rfl) (by exact List.not_mem_nil) rfl
    (by intro x hx; simp [signedUp,SignUps.submission] at hx)
    signedUp_sized .emptyNode
    ⟨fun s _ => FImmutableTree.empty_valueAtPath s,fun key => FNode.getChild_emptyNode _⟩
  obtain ⟨repo,f,url,x,_,hf,hread,huser⟩ := h
  exact ⟨_,_,repo,x,rfl,rfl,hread,f,url,hf,huser⟩

end ShareImage.App
