/-!
Tables: values by name, each name once, in the order in which the names came in.
-/

namespace GoOutline

structure Table (α : Type) where
  entries : List (String × α)
  nodup : (entries.map Prod.fst).Nodup
deriving Repr

namespace Table

variable {α : Type}

def empty : Table α := ⟨[], List.nodup_nil⟩

instance : Inhabited (Table α) := ⟨empty⟩

def names (t : Table α) : List String := t.entries.map Prod.fst

def values (t : Table α) : List α := t.entries.map Prod.snd

def size (t : Table α) : Nat := t.entries.length

def get? (t : Table α) (name : String) : Option α := t.entries.lookup name

theorem mem_values {t : Table α} {name : String} {a : α} (h : t.get? name = some a) :
    a ∈ t.values := by
  obtain ⟨front, back, he, _⟩ := List.lookup_eq_some_iff.1 h
  simp [values, he]

def replaceIn (name : String) (a : α) (entries : List (String × α)) : List (String × α) :=
  entries.map fun e => if e.1 = name then (name, a) else e

theorem names_replaceIn (name : String) (a : α) (entries : List (String × α)) :
    (replaceIn name a entries).map Prod.fst = entries.map Prod.fst := by
  simp only [replaceIn, List.map_map]
  refine List.map_congr_left fun e _ => ?_
  by_cases h : e.1 = name <;> simp [h]

theorem nodup_append_one {names : List String} {name : String} (hn : names.Nodup)
    (h : name ∉ names) : (names ++ [name]).Nodup := by
  rw [List.nodup_append]
  refine ⟨hn, by simp, fun a ha b hb => ?_⟩
  rw [List.mem_singleton.1 hb]
  exact fun he => h (he ▸ ha)

/-- The last value of a name wins, its first place stays. -/
def insert (t : Table α) (name : String) (a : α) : Table α :=
  if h : name ∈ t.entries.map Prod.fst then
    ⟨replaceIn name a t.entries, by rw [names_replaceIn]; exact t.nodup⟩
  else
    ⟨t.entries ++ [(name, a)], by simpa using nodup_append_one t.nodup h⟩

/-- The first value of a name wins. -/
def insertNew (t : Table α) (name : String) (a : α) : Table α :=
  if h : name ∈ t.entries.map Prod.fst then t
  else ⟨t.entries ++ [(name, a)], by simpa using nodup_append_one t.nodup h⟩

/-- The first value of each name. -/
def ofFirst (entries : List (String × α)) : Table α :=
  entries.foldl (fun t e => t.insertNew e.1 e.2) empty

theorem sublist_foldl_insertNew (t : Table α) (entries : List (String × α)) :
    (entries.foldl (fun t e => t.insertNew e.1 e.2) t).entries.Sublist (t.entries ++ entries) := by
  induction entries generalizing t with
  | nil => simp
  | cons e entries ih =>
    refine (ih (t.insertNew e.1 e.2)).trans ?_
    by_cases h : e.1 ∈ t.entries.map Prod.fst
    · simp only [insertNew, dif_pos h]
      exact (List.sublist_cons_self e entries).append_left t.entries
    · simp [insertNew, dif_neg h]

theorem sublist_ofFirst (entries : List (String × α)) : (ofFirst entries).entries.Sublist entries :=
  sublist_foldl_insertNew empty entries

/-- The last value of each name. -/
def ofLast (entries : List (String × α)) : Table α :=
  entries.foldl (fun t e => t.insert e.1 e.2) empty

/-- The same names with the same values, in any order. -/
def sameAs [BEq α] (t u : Table α) : Bool :=
  t.size == u.size && t.entries.all fun e => u.get? e.1 == some e.2

end Table

end GoOutline
