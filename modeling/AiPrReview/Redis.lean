import AiPrReview.Program
import AiPrReview.Table

/-! A Redis server: keys that hold strings, lists and hashes, and the commands
on them, each of which is atomic. What a client cannot foresee, the order in
which the fields of a hash are listed and the batches of a scan, is chosen by
the environment. -/

namespace AiPrReview.Redis

/-- A finite map that can be listed. -/
abbrev Dict (K V : Type) : Type := Table (Prod.fst : K × V → K)

namespace Dict

variable {K V : Type}

def empty : Dict K V := Table.empty

def names (d : Dict K V) : List K := d.rows.map Prod.fst

def erase (d : Dict K V) (p : K → Bool) : Dict K V := Table.delete d fun kv => p kv.1

variable [DecidableEq K]

def find (d : Dict K V) (k : K) : Option V := (Table.get d k).map Prod.snd

def put (d : Dict K V) (k : K) (v : V) : Dict K V :=
  Table.upsert d (k, v) (fun old => (old.1, v)) fun _ => rfl

def merge (d m : Dict K V) : Dict K V := m.rows.foldl (fun d kv => d.put kv.1 kv.2) d

theorem mem_rows_iff {d : Dict K V} {k : K} {v : V} : (k, v) ∈ d.rows ↔ d.find k = some v := by
  rw [Table.mem_rows_iff, find]
  cases hg : Table.get d k with
  | none => simp
  | some kv =>
    have hk : kv.1 = k := Table.get_key hg
    obtain ⟨k', v'⟩ := kv
    obtain rfl : k' = k := hk
    simp

theorem mem_names_iff {d : Dict K V} {k : K} : k ∈ d.names ↔ (d.find k).isSome := by
  simp only [names, List.mem_map, Option.isSome_iff_exists, ← mem_rows_iff]
  constructor
  · intro h
    obtain ⟨⟨k', v⟩, hm, rfl⟩ := h
    exact ⟨v, hm⟩
  · intro h
    obtain ⟨v, hm⟩ := h
    exact ⟨(k, v), hm, rfl⟩

@[simp] theorem find_empty (k : K) : (empty : Dict K V).find k = none := rfl

@[simp] theorem find_put (d : Dict K V) (k k' : K) (v : V) :
    (d.put k v).find k' = if k = k' then some v else d.find k' := by
  unfold find put
  rw [Table.get_upsert]
  by_cases hk : k = k'
  · rw [if_pos hk, if_pos hk]
    cases Table.get d k' <;> rfl
  · rw [if_neg hk, if_neg hk]

theorem merge_of_nil (d : Dict K V) {m : Dict K V} (h : m.rows = []) : d.merge m = d := by
  rw [merge, h]
  rfl

theorem find_foldl_put {l : List (K × V)} (hl : (l.map Prod.fst).Nodup) {d : Dict K V} {k : K} :
    (l.foldl (fun d kv => d.put kv.1 kv.2) d).find k =
      ((l.find? fun kv => kv.1 == k).map Prod.snd).or (d.find k) := by
  induction l generalizing d with
  | nil => rfl
  | cons kv l ih =>
    rw [List.map_cons, List.nodup_cons] at hl
    rw [List.foldl_cons, ih hl.2, find_put]
    by_cases hk : kv.1 = k
    · have hnone : l.find? (fun kv => kv.1 == k) = none := by
        rw [List.find?_eq_none]
        intro x hx he
        have hx' : x.1 = kv.1 := (eq_of_beq he).trans hk.symm
        exact hl.1 (List.mem_map.mpr ⟨x, hx, hx'⟩)
      rw [hnone, List.find?_cons_of_pos (by simp [hk]), if_pos hk]
      rfl
    · rw [List.find?_cons_of_neg (by simp [hk]), if_neg hk]

@[simp] theorem find_merge (d m : Dict K V) (k : K) : (d.merge m).find k = (m.find k).or (d.find k) :=
  find_foldl_put m.keys_nodup

@[simp] theorem find_erase (d : Dict K V) (p : K → Bool) (k : K) :
    (d.erase p).find k = if p k then none else d.find k := by
  apply Option.ext
  intro v
  rw [← mem_rows_iff, erase, Table.mem_delete_iff, mem_rows_iff]
  by_cases hp : p k = true <;> simp [hp]

theorem names_merge_ne_nil (d : Dict K V) {m : Dict K V} (h : m.rows ≠ []) : (d.merge m).names ≠ [] := by
  obtain ⟨⟨k, v⟩, hm⟩ := List.exists_mem_of_ne_nil _ h
  refine List.ne_nil_of_mem (a := k) ?_
  rw [mem_names_iff, find_merge, mem_rows_iff.mp hm]
  rfl

theorem filterMap_get_perm {d : Dict K V} {order : List K} (h : order.Perm d.names) :
    (order.filterMap (Table.get d)).Perm d.rows := by
  have hrows : d.names.filterMap (Table.get d) = d.rows := by
    rw [names, List.filterMap_map]
    calc d.rows.filterMap (Table.get d ∘ Prod.fst)
        = d.rows.filterMap some := by
          refine List.filterMap_congr ?_
          intro kv hkv
          exact Table.mem_rows_iff.mp hkv
      _ = d.rows := List.filterMap_some
  exact hrows ▸ h.filterMap _

end Dict

inductive Value (K S F : Type) : Type where
  | string (s : S)
  | list (items : List K)
  | hash (fields : Dict K F)

/-- `unvisited` is what the scan in progress has still to go through. -/
structure Server (K S F : Type) : Type where
  keyspace : Dict K (Value K S F)
  unvisited : List (List K)

/-- `lindexLast key` is `LINDEX key -1` and `lrange key` is `LRANGE key 0 -1`. -/
inductive Command (K S F : Type) : Type where
  | set (key : K) (value : S)
  | get (key : K)
  | rpush (key item : K)
  | lindexLast (key : K)
  | lrange (key : K)
  | hkeys (key : K)
  | hset (key : K) (mapping : Dict K F)
  | hgetall (key : K)
  | scan (cursor : Nat) (pattern : K)
  | del (keys : List K)

/-- A cursor is the number of answers still to come, so that a scan, which
begins with cursor 0, ends when that is the cursor of the answer. -/
def Command.Reply {K S F : Type} : Command K S F → Type
  | set .. => Unit
  | get _ => Option S
  | rpush .. => Unit
  | lindexLast _ => Option K
  | lrange _ => List K
  | hkeys _ => List K
  | hset .. => Unit
  | hgetall _ => List (K × F)
  | scan cursor _ => {next : Nat // cursor = 0 ∨ next < cursor} × List K
  | del _ => Unit

inductive Choice (K : Type) : Type where
  | plain
  | order (names : List K)
  | batches (visits : List (List K))

instance (K : Type) : Nonempty (Choice K) := ⟨.plain⟩

variable {K S F : Type} [DecidableEq K]

namespace Server

def lookup (w : Server K S F) (k : K) : Option (Value K S F) := w.keyspace.find k

def store (w : Server K S F) (k : K) (v : Value K S F) : Server K S F :=
  { w with keyspace := w.keyspace.put k v }

def remove (w : Server K S F) (ks : List K) : Server K S F :=
  { w with keyspace := w.keyspace.erase ks.contains }

/-- The list at a key; `none` if it holds something else. -/
def itemsAt (w : Server K S F) (k : K) : Option (List K) :=
  match w.lookup k with
  | none => some []
  | some (.list items) => some items
  | some _ => none

def fieldsAt (w : Server K S F) (k : K) : Option (Dict K F) :=
  match w.lookup k with
  | none => some .empty
  | some (.hash fields) => some fields
  | some _ => none

def empty : Server K S F := ⟨.empty, []⟩

@[simp] theorem lookup_empty (k : K) : (empty : Server K S F).lookup k = none := rfl

@[simp] theorem lookup_store (w : Server K S F) (k k' : K) (v : Value K S F) :
    (w.store k v).lookup k' = if k = k' then some v else w.lookup k' :=
  Dict.find_put ..

@[simp] theorem lookup_remove (w : Server K S F) (ks : List K) (k : K) :
    (w.remove ks).lookup k = if k ∈ ks then none else w.lookup k := by
  have hh := Dict.find_erase w.keyspace ks.contains k
  simp only [List.contains_iff_mem] at hh
  exact hh

theorem lookup_of_fieldsAt {w : Server K S F} {k : K} {d : Dict K F} (h : w.fieldsAt k = some d)
    (hd : d.names ≠ []) : w.lookup k = some (.hash d) := by
  unfold fieldsAt at h
  split at h
  · exact absurd rfl (Option.some.inj h ▸ hd)
  · next hk => rw [hk, Option.some.inj h]
  · cases h

theorem itemsAt_congr {w w' : Server K S F} {k : K} (h : w'.lookup k = w.lookup k) : w'.itemsAt k = w.itemsAt k := by
  simp only [itemsAt, h]

theorem fieldsAt_congr {w w' : Server K S F} {k : K} (h : w'.lookup k = w.lookup k) :
    w'.fieldsAt k = w.fieldsAt k := by
  simp only [fieldsAt, h]

theorem itemsAt_store (w : Server K S F) {k k' : K} (h : k ≠ k') (v : Value K S F) :
    (w.store k v).itemsAt k' = w.itemsAt k' := by
  simp only [itemsAt, lookup_store, if_neg h]

theorem fieldsAt_store (w : Server K S F) {k k' : K} (h : k ≠ k') (v : Value K S F) :
    (w.store k v).fieldsAt k' = w.fieldsAt k' := by
  simp only [fieldsAt, lookup_store, if_neg h]

@[simp] theorem itemsAt_store_list (w : Server K S F) (k : K) (items : List K) :
    (w.store k (.list items)).itemsAt k = some items := by
  simp [itemsAt]

@[simp] theorem fieldsAt_store_hash (w : Server K S F) (k : K) (d : Dict K F) :
    (w.store k (.hash d)).fieldsAt k = some d := by
  simp [fieldsAt]

end Server

/-- One batch of a scan: the keys in it that still exist and match. -/
def visit (fits : K → Bool) (w : Server K S F) (batch : List K) : List K :=
  batch.filter fun k => (w.lookup k).isSome && fits k

theorem mem_visit_iff {fits : K → Bool} {w : Server K S F} {batch : List K} {k : K} :
    k ∈ visit fits w batch ↔ k ∈ batch ∧ (w.lookup k).isSome = true ∧ fits k = true := by
  simp [visit]

/-- `fits` is the server's pattern matching. A command on a key that holds
another type of value raises. -/
def Command.exec (fits : K → K → Bool) :
    (c : Command K S F) → Choice K → Server K S F → Option (c.Reply × Server K S F)
  | set k s, _, w => some ((), w.store k (.string s))
  | get k, _, w =>
    match w.lookup k with
    | none => some (none, w)
    | some (.string s) => some (some s, w)
    | some _ => none
  | rpush k item, _, w => (w.itemsAt k).map fun items => ((), w.store k (.list (items ++ [item])))
  | lindexLast k, _, w => (w.itemsAt k).map fun items => (items.getLast?, w)
  | lrange k, _, w => (w.itemsAt k).map fun items => (items, w)
  | hkeys k, .order names, w =>
    (w.fieldsAt k).bind fun d => if names.Perm d.names then some (names, w) else none
  | hset k mapping, _, w => (w.fieldsAt k).map fun d => ((), w.store k (.hash (d.merge mapping)))
  | hgetall k, .order names, w =>
    (w.fieldsAt k).bind fun d =>
      if names.Perm d.names then some (names.filterMap (Table.get d), w) else none
  | scan 0 pattern, .batches (batch :: rest), w =>
    if w.keyspace.names ⊆ (batch :: rest).flatten then
      some ((⟨rest.length, .inl rfl⟩, visit (fits pattern) w batch), { w with unvisited := rest })
    else none
  | scan (cursor + 1) pattern, _, w =>
    match w.unvisited with
    | batch :: rest =>
      if h : rest.length = cursor then
        some ((⟨rest.length, .inr (by omega)⟩, visit (fits pattern) w batch), { w with unvisited := rest })
      else none
    | [] => none
  | del ks, _, w => some ((), w.remove ks)
  | _, _, _ => none

example (fits : K → K → Bool) (e : Choice K) (k item : K) (s : S) (w : Server K S F) :
    Command.exec fits (.rpush k item) e (w.store k (.string s)) = none := by
  simp [Command.exec, Server.itemsAt]

/-! What the commands do, as rules for the programs that issue them. -/

section

open Prog

variable {fits : K → K → Bool} {w : Server K S F} {k : K} {α : Type} {post : α → Server K S F → Prop}

theorem meets_set {s : S} {f : Unit → Prog Command.Reply α}
    (h : (f ()).Meets (Command.exec fits) post (w.store k (.string s))) :
    (call (.set k s) f).Meets (Command.exec fits) post w := by
  exact .call (fun _ => rfl) h

theorem meets_get_none {f : Option S → Prog Command.Reply α} (hk : w.lookup k = none)
    (h : (f none).Meets (Command.exec fits) post w) :
    (call (.get k) f).Meets (Command.exec fits) post w := by
  refine .call ?_ h
  intro e
  simp only [Command.exec, hk]

theorem meets_get_string {s : S} {f : Option S → Prog Command.Reply α} (hk : w.lookup k = some (.string s))
    (h : (f (some s)).Meets (Command.exec fits) post w) :
    (call (.get k) f).Meets (Command.exec fits) post w := by
  refine .call ?_ h
  intro e
  simp only [Command.exec, hk]

theorem meets_rpush {item : K} {items : List K} {f : Unit → Prog Command.Reply α}
    (hk : w.itemsAt k = some items)
    (h : (f ()).Meets (Command.exec fits) post (w.store k (.list (items ++ [item])))) :
    (call (.rpush k item) f).Meets (Command.exec fits) post w := by
  refine .call ?_ h
  intro e
  simp only [Command.exec, hk, Option.map_some]

theorem meets_lindexLast {items : List K} {f : Option K → Prog Command.Reply α}
    (hk : w.itemsAt k = some items) (h : (f items.getLast?).Meets (Command.exec fits) post w) :
    (call (.lindexLast k) f).Meets (Command.exec fits) post w := by
  refine .call ?_ h
  intro e
  simp only [Command.exec, hk, Option.map_some]

theorem meets_lrange {items : List K} {f : List K → Prog Command.Reply α}
    (hk : w.itemsAt k = some items) (h : (f items).Meets (Command.exec fits) post w) :
    (call (.lrange k) f).Meets (Command.exec fits) post w := by
  refine .call ?_ h
  intro e
  simp only [Command.exec, hk]
  rfl

theorem meets_hset {d mapping : Dict K F} {f : Unit → Prog Command.Reply α} (hk : w.fieldsAt k = some d)
    (h : (f ()).Meets (Command.exec fits) post (w.store k (.hash (d.merge mapping)))) :
    (call (.hset k mapping) f).Meets (Command.exec fits) post w := by
  refine .call ?_ h
  intro e
  simp only [Command.exec, hk, Option.map_some]

theorem meets_del {ks : List K} {f : Unit → Prog Command.Reply α}
    (h : (f ()).Meets (Command.exec fits) post (w.remove ks)) :
    (call (.del ks) f).Meets (Command.exec fits) post w := by
  exact .call (fun _ => rfl) h

theorem exec_hkeys {d : Dict K F} (hk : w.fieldsAt k = some d) {e : Choice K} {names : List K}
    {w' : Server K S F} (h : Command.exec fits (.hkeys k) e w = some (names, w')) :
    names.Perm d.names ∧ w' = w := by
  cases e with
  | order l =>
    simp only [Command.exec, hk, Option.bind_some] at h
    split at h
    · next hp =>
      obtain ⟨rfl, rfl⟩ := Prod.mk.injEq .. ▸ Option.some.inj h
      exact ⟨hp, rfl⟩
    · cases h
  | plain => cases h
  | batches l => cases h

theorem meets_hkeys {d : Dict K F} {f : List K → Prog Command.Reply α} (hk : w.fieldsAt k = some d)
    (h : ∀ names, names.Perm d.names → (f names).Meets (Command.exec fits) post w) :
    (call (.hkeys k) f).Meets (Command.exec fits) post w := by
  refine ⟨⟨.order d.names, d.names, w, ?_⟩, ?_⟩
  · simp only [Command.exec, hk, Option.bind_some, if_pos (List.Perm.refl _)]
  · intro e names w' he
    obtain ⟨hp, rfl⟩ := exec_hkeys hk he
    exact h names hp

theorem meets_hgetall {d : Dict K F} {f : List (K × F) → Prog Command.Reply α}
    (hk : w.fieldsAt k = some d)
    (h : ∀ rows, rows.Perm d.rows → (f rows).Meets (Command.exec fits) post w) :
    (call (.hgetall k) f).Meets (Command.exec fits) post w := by
  refine ⟨⟨.order d.names, d.names.filterMap (Table.get d), w, ?_⟩, ?_⟩
  · simp only [Command.exec, hk, Option.bind_some, if_pos (List.Perm.refl _)]
  · intro e rows w' he
    cases e with
    | order l =>
      simp only [Command.exec, hk, Option.bind_some] at he
      split at he
      · next hp =>
        obtain ⟨rfl, rfl⟩ := Prod.mk.injEq .. ▸ Option.some.inj he
        exact h _ (Dict.filterMap_get_perm hp)
      · cases he
    | plain => cases he
    | batches l => cases he

theorem meets_scan_next {batch : List K} {rest : List (List K)} {cursor : Nat} {pattern : K}
    {f : Command.Reply (S := S) (F := F) (.scan (cursor + 1) pattern) → Prog Command.Reply α}
    (hw : w.unvisited = batch :: rest) (hc : rest.length = cursor)
    (h : ∀ hn, (f (⟨rest.length, hn⟩, visit (fits pattern) w batch)).Meets (Command.exec fits) post
      { w with unvisited := rest }) :
    (call (.scan (cursor + 1) pattern) f).Meets (Command.exec fits) post w := by
  refine .call ?_ (h (.inr (by omega)))
  intro e
  simp only [Command.exec, hw, dif_pos hc]

theorem meets_scan_start {pattern : K} {f : Command.Reply (S := S) (F := F) (.scan 0 pattern) → Prog Command.Reply α}
    (h : ∀ batch rest, w.keyspace.names ⊆ (batch :: rest).flatten →
      (f (⟨rest.length, .inl rfl⟩, visit (fits pattern) w batch)).Meets (Command.exec fits) post
        { w with unvisited := rest }) :
    (call (.scan 0 pattern) f).Meets (Command.exec fits) post w := by
  refine ⟨⟨.batches [w.keyspace.names], _, _, if_pos (by simp)⟩, ?_⟩
  intro e r w' he
  cases e with
  | plain => cases he
  | order l => cases he
  | batches l =>
    cases l with
    | nil => cases he
    | cons batch rest =>
      simp only [Command.exec] at he
      split at he
      · next hsub =>
        obtain ⟨rfl, rfl⟩ := Prod.mk.injEq .. ▸ Option.some.inj he
        exact h batch rest hsub
      · cases he

end

end AiPrReview.Redis
