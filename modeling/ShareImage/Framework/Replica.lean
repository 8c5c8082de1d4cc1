import Mathlib.Data.List.AList

namespace Framework

/-- A write at one key: its new value, or the removal of its entry. -/
structure Write (Key Value : Type*) where
  key : Key
  value : Option Value

/-- The value written, if any, has the property at its key. -/
def Write.Has {Key Value : Type*} (P : Key → Value → Prop) (w : Write Key Value) : Prop :=
  ∀value,w.value=some value → P w.key value

/-- A client's copy of a table: what the server has told it, and over that its own writes that
the server has not answered yet, oldest first. -/
structure Replica (Key Value : Type*) where
  server : AList fun _ : Key => Value
  pending : List (Write Key Value) := []

namespace Replica

variable {Key Value : Type*} [DecidableEq Key]

def write (table : AList fun _ : Key => Value) (w : Write Key Value) : AList fun _ : Key => Value :=
  match w.value with
  | some value => table.insert w.key value
  | none => table.erase w.key

/-- What the client reads. -/
def view (r : Replica Key Value) : AList fun _ : Key => Value := r.pending.foldl write r.server

def get (r : Replica Key Value) (key : Key) : Option Value := r.view.lookup key

/-- The server reports a write of any client, the client submits a write of its own, or the
server answers the oldest of these. -/
inductive Change (Key Value : Type*) where
  | report (w : Write Key Value)
  | submit (w : Write Key Value)
  | accept
  | reject

def change (r : Replica Key Value) : Change Key Value → Option (Replica Key Value)
  | .report w => some {r with server := write r.server w}
  | .submit w => some {r with pending := r.pending++[w]}
  | .accept =>
    match r.pending with
    | [] => none
    | w::ws => some ⟨write r.server w,ws⟩
  | .reject =>
    match r.pending with
    | [] => none
    | _::ws => some ⟨r.server,ws⟩

/-- The key at which the change can change what the client reads. -/
def touched (r : Replica Key Value) : Change Key Value → Option Key
  | .report w => some w.key
  | .submit w => some w.key
  | .accept => none
  | .reject => r.pending.head?.map Write.key

/-- The entry, if any, that the client did not read in `r` and reads in `s`. -/
def appearing (r s : Replica Key Value) (key : Key) : List (Key × Value) :=
  match r.get key,s.get key with
  | none,some value => [(key,value)]
  | _,_ => []

/-- The entries that appear to the client with the change. -/
def appeared (r s : Replica Key Value) (c : Change Key Value) : List (Key × Value) :=
  match r.touched c with
  | none => []
  | some key => appearing r s key

/-- All that the client reads. -/
def entries (r : Replica Key Value) : List (Key × Value) := r.view.entries.map fun e => (e.1,e.2)

/-- What the client reads at a key. -/
def entry (r : Replica Key Value) (key : Key) : List (Key × Value) :=
  (r.get key).toList.map fun value => (key,value)

theorem lookup_write_ne (table : AList fun _ : Key => Value) (w : Write Key Value) (key : Key)
    (h : key≠w.key) : (write table w).lookup key=table.lookup key := by
  unfold write
  cases w.value with
  | some value => exact AList.lookup_insert_ne h
  | none => exact AList.lookup_erase_ne h

theorem lookup_write_self (table : AList fun _ : Key => Value) (w : Write Key Value) :
    (write table w).lookup w.key=w.value := by
  unfold write
  cases w.value with
  | some value => exact AList.lookup_insert _
  | none => exact AList.lookup_erase _ _

theorem lookup_write_congr (s t : AList fun _ : Key => Value) (w : Write Key Value) (key : Key)
    (h : s.lookup key=t.lookup key) : (write s w).lookup key=(write t w).lookup key := by
  by_cases hk : key=w.key
  · subst hk
    unfold write
    cases w.value with
    | some value => rw [AList.lookup_insert,AList.lookup_insert]
    | none => rw [AList.lookup_erase,AList.lookup_erase]
  · rw [lookup_write_ne s w key hk,lookup_write_ne t w key hk,h]

theorem lookup_foldl_congr (ws : List (Write Key Value)) (s t : AList fun _ : Key => Value)
    (key : Key) (h : s.lookup key=t.lookup key) :
    (ws.foldl write s).lookup key=(ws.foldl write t).lookup key := by
  induction ws generalizing s t with
  | nil => exact h
  | cons w ws ih => exact ih (write s w) (write t w) (lookup_write_congr s t w key h)

/-- A change is seen at the key it touches, and nowhere else. -/
theorem get_change (r s : Replica Key Value) (c : Change Key Value) (h : r.change c=some s)
    (key : Key) (hk : r.touched c≠some key) : s.get key=r.get key := by
  cases c with
  | report w =>
    cases h
    have hne : key≠w.key := fun he => hk (congrArg some he.symm)
    exact lookup_foldl_congr r.pending _ _ key (lookup_write_ne r.server w key hne)
  | submit w =>
    cases h
    have hne : key≠w.key := fun he => hk (congrArg some he.symm)
    simp only [get,view,List.foldl_append]
    exact lookup_write_ne _ w key hne
  | accept =>
    obtain ⟨server,pending⟩ := r
    cases pending with
    | nil => contradiction
    | cons w ws =>
      cases h
      rfl
  | reject =>
    obtain ⟨server,pending⟩ := r
    cases pending with
    | nil => contradiction
    | cons w ws =>
      cases h
      have hne : key≠w.key := fun he => hk (congrArg some he.symm)
      exact lookup_foldl_congr ws _ _ key (lookup_write_ne server w key hne).symm

/-- A write of the client's own is seen at once. -/
theorem get_submit (r s : Replica Key Value) (w : Write Key Value)
    (h : r.change (.submit w)=some s) : s.get w.key=w.value := by
  cases h
  simp only [get,view,List.foldl_append,List.foldl_cons,List.foldl_nil,write]
  cases w.value with
  | some value => exact AList.lookup_insert _
  | none => exact AList.lookup_erase _ _

theorem lookup_foldl_other (ws : List (Write Key Value)) (table : AList fun _ : Key => Value)
    (key : Key) (h : ∀w∈ws,w.key≠key) :
    (ws.foldl write table).lookup key=table.lookup key := by
  induction ws generalizing table with
  | nil => rfl
  | cons w ws ih =>
    have hw : w.key≠key := h w List.mem_cons_self
    calc
      ((w::ws).foldl write table).lookup key = (write table w).lookup key := by
        apply ih
        intro x hx
        exact h x (List.mem_cons_of_mem w hx)
      _ = table.lookup key := lookup_write_ne table w key (Ne.symm hw)

/-- Where the client has written nothing itself it reads what the server has. -/
theorem get_server (r : Replica Key Value) (key : Key) (h : ∀w∈r.pending,w.key≠key) :
    r.get key=r.server.lookup key :=
  lookup_foldl_other r.pending r.server key h

/-- An own write that is the only one at its key is what the client reads there. -/
theorem get_pending (r : Replica Key Value) (w : Write Key Value) (hw : w∈r.pending)
    (hnodup : (r.pending.map Write.key).Nodup) : r.get w.key=w.value := by
  obtain ⟨before,after,hsplit⟩ := List.append_of_mem hw
  rw [hsplit,List.map_append,List.map_cons] at hnodup
  have hafter : ∀x∈after,x.key≠w.key := by
    intro x hx hkey
    have hcons := (List.nodup_append.mp hnodup).2.1
    exact (List.nodup_cons.mp hcons).1 (hkey ▸ List.mem_map_of_mem hx)
  simp only [get,view,hsplit,List.foldl_append,List.foldl_cons]
  rw [lookup_foldl_other after _ w.key hafter,write]
  cases w.value with
  | some value => exact AList.lookup_insert _
  | none => exact AList.lookup_erase _ _

/-- A key that keeps the value it has, if any, gains the entry that appears and no other. -/
theorem entry_change (r s : Replica Key Value) (key : Key)
    (h : ∀value,r.get key=some value → s.get key=some value) :
    s.entry key=r.entry key++appearing r s key := by
  unfold entry appearing
  cases hr : r.get key with
  | none => cases s.get key <;> rfl
  | some value =>
    rw [h value hr]
    rfl

theorem filter_eq_lookupAll (key : Key) (l : List (Σ_ : Key,Value)) :
    (l.map fun e => (e.1,e.2)).filter (fun e => e.1==key)=
      (l.lookupAll key).map fun value => (key,value) := by
  induction l with
  | nil => rfl
  | cons e l ih =>
    obtain ⟨k,value⟩ := e
    by_cases hk : k=key
    · subst hk
      simp [List.lookupAll_cons_eq,ih]
    · have hne : key≠(⟨k,value⟩ : Σ_ : Key,Value).1 := Ne.symm hk
      rw [List.lookupAll_cons_ne l _ hne,←ih]
      simp [hk]

theorem filter_entries (r : Replica Key Value) (key : Key) :
    r.entries.filter (fun e => e.1==key)=r.entry key := by
  rw [entries,filter_eq_lookupAll,List.lookupAll_eq_dlookup key r.view.nodupKeys]
  rfl

theorem key_of_mem_appearing (r s : Replica Key Value) (key : Key) (e : Key × Value)
    (h : e∈appearing r s key) : e.1=key := by
  unfold appearing at h
  split at h
  · exact congrArg Prod.fst (List.mem_singleton.mp h)
  · contradiction

theorem filter_appeared (r s : Replica Key Value) (c : Change Key Value)
    (h : r.change c=some s) (key : Key) :
    (r.appeared s c).filter (fun e => e.1==key)=appearing r s key := by
  unfold appeared
  by_cases hk : r.touched c=some key
  · rw [hk]
    apply List.filter_eq_self.mpr
    intro e he
    simpa using key_of_mem_appearing r s key e he
  · have hnone : appearing r s key=[] := by
      unfold appearing
      rw [get_change r s c h key hk]
      cases r.get key <;> rfl
    rw [hnone]
    apply List.filter_eq_nil_iff.mpr
    intro e he
    cases ht : r.touched c with
    | none => simp [ht] at he
    | some k =>
      rw [ht] at he hk
      have hek : e.1=k := key_of_mem_appearing r s k e he
      rw [hek]
      simpa using fun hkk => hk (congrArg some hkk)

theorem get_of_mem_entries (r : Replica Key Value) (e : Key × Value) (h : e∈r.entries) :
    r.get e.1=some e.2 := by
  obtain ⟨x,hx,rfl⟩ := List.mem_map.mp h
  exact AList.mem_lookup_iff.mpr hx

theorem get_of_mem_appeared (r s : Replica Key Value) (c : Change Key Value) (e : Key × Value)
    (h : e∈r.appeared s c) : s.get e.1=some e.2 := by
  unfold appeared at h
  cases ht : r.touched c with
  | none =>
    rw [ht] at h
    contradiction
  | some key =>
    rw [ht] at h
    change e∈appearing r s key at h
    unfold appearing at h
    split at h
    · rename_i value _ hs
      rw [List.mem_singleton.mp h]
      exact hs
    · contradiction

section Known

variable (P : Key → Value → Prop)

def Change.Has : Change Key Value → Prop
  | .report w | .submit w => w.Has P
  | .accept | .reject => True

/-- Every value in the copy has the property. -/
structure Known (r : Replica Key Value) : Prop where
  server : ∀key value,r.server.lookup key=some value → P key value
  pending : ∀w∈r.pending,w.Has P

variable {P}

theorem lookup_write_has (table : AList fun _ : Key => Value) (w : Write Key Value)
    (ht : ∀key value,table.lookup key=some value → P key value) (hw : w.Has P) (key : Key)
    (value : Value) (h : (write table w).lookup key=some value) : P key value := by
  by_cases hk : key=w.key
  · subst hk
    unfold write at h
    cases hv : w.value with
    | some x =>
      rw [hv,AList.lookup_insert] at h
      exact Option.some.inj h ▸ hw x hv
    | none =>
      rw [hv,AList.lookup_erase] at h
      contradiction
  · rw [lookup_write_ne table w key hk] at h
    exact ht key value h

theorem Known.get {r : Replica Key Value} (hr : r.Known P) (key : Key) (value : Value)
    (h : r.get key=some value) : P key value := by
  obtain ⟨server,pending⟩ := r
  obtain ⟨hserver,hpending⟩ := hr
  simp only [Replica.get,view] at h hserver hpending
  induction pending generalizing server with
  | nil => exact hserver key value h
  | cons w ws ih =>
    refine ih (write server w) h ?_ fun x hx => hpending x (List.mem_cons_of_mem w hx)
    exact lookup_write_has server w hserver (hpending w List.mem_cons_self)

theorem Known.change {r s : Replica Key Value} (hr : r.Known P) (c : Change Key Value)
    (hc : c.Has P) (h : r.change c=some s) : s.Known P := by
  obtain ⟨server,pending⟩ := r
  obtain ⟨hserver,hpending⟩ := hr
  cases c with
  | report w =>
    cases h
    exact ⟨lookup_write_has server w hserver hc,hpending⟩
  | submit w =>
    cases h
    refine ⟨hserver,?_⟩
    intro x hx
    rcases List.mem_append.mp hx with hx | hx
    · exact hpending x hx
    · exact List.mem_singleton.mp hx ▸ hc
  | accept =>
    cases pending with
    | nil => contradiction
    | cons w ws =>
      cases h
      exact ⟨lookup_write_has server w hserver (hpending w List.mem_cons_self),
        fun x hx => hpending x (List.mem_cons_of_mem w hx)⟩
  | reject =>
    cases pending with
    | nil => contradiction
    | cons w ws =>
      cases h
      exact ⟨hserver,fun x hx => hpending x (List.mem_cons_of_mem w hx)⟩

end Known

end Replica

end Framework
