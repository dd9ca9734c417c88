import ProjectSense.Proofs.Text.Case
import ProjectSense.Proofs.Text.NameMap

/-!
# Names as keys

A name is hashed by the bytes of its spelling, each lowered, and a byte behind them that ends no
text.  These bytes are those of another name just when the names are the same, so maps that compare
hashes before names keep one entry for each name.

* `Name.key_eq_iff`, `Name.eq_of_key_prefix`: what the bytes say of names.
* `Name.OnePerName`: keys of which each name has one; `Name.onePerName_hashMap`: those of any hash
  map; `NameMap.onePerName_run`: those of a map in order.
* `NameMap.find?_bucket`: an index of hashes loses none.
* `Name.key_lawful`: all of it.
-/

namespace ProjectSense

open Text.Utf8 (encode lowerByte)

namespace Name

variable {a b : Name}

/-! ### The bytes of names -/

/-- the bytes are lowered one by one -/
theorem key_eq (a : Name) : a.key = (encode a.spelling.toList).map lowerByte ++ [0xFF] := by
  rw [key, foldCase, Text.Utf8.encode_toLower]

theorem key_eq_iff : a.key = b.key ↔ a.same b = true := by
  rw [key, key, List.append_left_inj, Text.Utf8.encode_inj, same_iff]

/-- the last byte stands nowhere else -/
theorem eq_of_key_prefix (h : a.key <+: b.key) : a.key = b.key := by
  rcases List.prefix_concat_iff.1 h with heq | hbefore
  · exact heq
  · have hlast : (0xFF : UInt8) ∈ a.key := List.mem_append_right _ List.mem_cons_self
    exact absurd (Text.Utf8.lt_of_mem_encode (hbefore.subset hlast)) (by decide)

theorem same_equivalence : Equivalence fun a b : Name => a.same b = true :=
  ⟨same_refl, same_symm, same_trans⟩

/-! ### Keys of maps -/

/-- of the keys each of the given names has one, in some spelling, and no other name has any -/
structure OnePerName (keys : List Name) (given : Name → Prop) : Prop where
  one : ∀ name, given name → keys.countP (·.same name) = 1
  others : ∀ name, ¬given name → keys.countP (·.same name) = 0

theorem onePerName_of_apart {keys : List Name} {given : Name → Prop}
    (h : NamesApart (keys.map (·.spelling)))
    (hgiven : ∀ name, given name ↔ ∃ key ∈ keys, key.same name = true) :
    OnePerName keys given := by
  refine ⟨fun name hname => ?_, fun name hname => ?_⟩
  · obtain ⟨key, hkey, hsame⟩ := (hgiven name).1 hname
    have hone := h.countP_eq_one (v := name.spelling) ⟨_, List.mem_map_of_mem hkey, hsame⟩
    rwa [List.countP_map] at hone
  · exact List.countP_eq_zero.2 fun key hkey hsame =>
      hname ((hgiven name).2 ⟨key, hkey, hsame⟩)

/-- a name as the key of a map whose hasher makes `hash` of the bytes that it is fed -/
structure Hashed (hash : List UInt8 → UInt64) where
  name : Name

namespace Hashed

variable {hash : List UInt8 → UInt64}

instance : BEq (Hashed hash) := ⟨fun a b => a.name.same b.name⟩

instance : Hashable (Hashed hash) := ⟨fun a => hash a.name.key⟩

instance : EquivBEq (Hashed hash) where
  rfl {a} := same_refl a.name
  symm h := same_symm h
  trans h g := same_trans h g

instance : LawfulHashable (Hashed hash) where
  hash_eq _ _ h := congrArg hash (key_eq_iff.2 h)

end Hashed

theorem onePerName_hashMap {hash : List UInt8 → UInt64} {β : Type}
    (m : Std.HashMap (Hashed hash) β) :
    OnePerName (m.keys.map (·.name)) fun name => ⟨name⟩ ∈ m := by
  refine onePerName_of_apart ?_ fun name => ?_
  · rw [List.map_map]
    exact List.pairwise_map.2 Std.HashMap.distinct_keys
  · rw [Std.HashMap.mem_iff_contains, ← Std.HashMap.contains_keys,
      List.contains_iff_exists_mem_beq]
    simp only [List.mem_map, exists_exists_and_eq_and]
    refine exists_congr fun key => and_congr_right fun _ => ?_
    exact ⟨same_symm, same_symm⟩

end Name

namespace NameMap

variable {β : Type}

/-- a change of the value under a name, or a first value for it -/
structure Edit (β : Type) where
  name : Name
  fresh : β
  change : β → β

/-- the map that the edits make, one after the other -/
def run (edits : List (Edit β)) : NameMap β :=
  edits.foldl (fun m e => m.upsert e.name e.fresh e.change) empty

theorem spellings_run (edits : List (Edit β)) :
    (run edits).spellings = distinctNames (edits.map (·.name.spelling)) := by
  have key : ∀ m : NameMap β,
      (edits.foldl (fun m e => m.upsert e.name e.fresh e.change) m).spellings =
        (edits.map (·.name.spelling)).foldl addName m.spellings := by
    induction edits with
    | nil => exact fun _ => rfl
    | cons e edits ih =>
      intro m
      rw [List.foldl_cons, ih, spellings_upsert, List.map_cons, List.foldl_cons]
  exact key empty

theorem onePerName_run (edits : List (Edit β)) :
    Name.OnePerName ((run edits).entries.map (·.1)) fun name =>
      ∃ e ∈ edits, e.name.same name = true := by
  have hspellings : ((run edits).entries.map (·.1)).map (·.spelling) =
      distinctNames (edits.map (·.name.spelling)) := by
    rw [List.map_map, ← spellings_run]
    rfl
  refine Name.onePerName_of_apart (hspellings ▸ distinctNames_apart _) fun name => ⟨?_, ?_⟩
  · rintro ⟨e, he, hsame⟩
    obtain ⟨v, hv, hfirst⟩ := exists_mem_distinctNames (List.mem_map_of_mem he)
    rw [← hspellings] at hv
    obtain ⟨key, hkey, rfl⟩ := List.mem_map.1 hv
    exact ⟨key, hkey, Name.same_trans hfirst hsame⟩
  · rintro ⟨key, hkey, hsame⟩
    have hv := mem_of_mem_distinctNames (hspellings ▸ List.mem_map_of_mem hkey)
    obtain ⟨e, he, hspelled⟩ := List.mem_map.1 hv
    refine ⟨e, he, ?_⟩
    rwa [Name.same, hspelled]

/-- the entries to which an index of hashes leads -/
def bucket (m : NameMap β) (hash : List UInt8 → UInt64) (name : Name) : List (Name × β) :=
  m.entries.filter fun e => hash e.1.key == hash name.key

/-- what a name stands for is found by its hash, whatever the hasher -/
theorem find?_bucket (m : NameMap β) (hash : List UInt8 → UInt64) (name : Name) :
    (m.bucket hash name).find? (·.1.same name) = m.entries.find? (·.1.same name) := by
  rw [bucket, List.find?_filter]
  congr 1
  funext e
  cases hsame : e.1.same name with
  | false => simp
  | true => simp [Name.key_eq_iff.2 hsame]

end NameMap

/-- The bytes of a name are lowered one by one, are those of another name just when the names are
the same, and begin no other's.  Being the same is an equivalence, and is to be spelled by the other
name's spelling.  Whatever the hasher, of the names put into a hash map or into a map in order each
has one entry, and the hash leads to it. -/
theorem Name.key_lawful :
    (∀ a : Name, a.key = (encode a.spelling.toList).map lowerByte ++ [0xFF]) ∧
      (∀ a b : Name, a.same b = true ↔ a.key = b.key) ∧
      (∀ a b : Name, a.key <+: b.key → a.key = b.key) ∧
      (Equivalence fun a b : Name => a.same b = true) ∧
      (∀ a b : Name, a.spelledBy b.spelling = true ↔ a.same b = true) ∧
      (∀ (β : Type) (hash : List UInt8 → UInt64) (m : Std.HashMap (Name.Hashed hash) β),
        Name.OnePerName (m.keys.map (·.name)) (fun name => ⟨name⟩ ∈ m) ∧
          ∀ a b v, ⟨b⟩ ∈ m.insert ⟨a⟩ v ↔ a.same b = true ∨ ⟨b⟩ ∈ m) ∧
      ∀ (β : Type) (edits : List (NameMap.Edit β)),
        Name.OnePerName ((NameMap.run edits).entries.map (·.1))
            (fun name => ∃ e ∈ edits, e.name.same name = true) ∧
          ∀ hash name, ((NameMap.run edits).bucket hash name).find? (·.1.same name) =
            (NameMap.run edits).entries.find? (·.1.same name) := by
  refine ⟨Name.key_eq, fun a b => Name.key_eq_iff.symm, fun a b => Name.eq_of_key_prefix,
    Name.same_equivalence, fun a b => Iff.rfl, fun β hash m => ⟨Name.onePerName_hashMap m, ?_⟩,
    fun β edits => ⟨NameMap.onePerName_run edits, NameMap.find?_bucket _⟩⟩
  exact fun a b v => Std.HashMap.mem_insert

end ProjectSense
