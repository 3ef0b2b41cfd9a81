import Mathlib
import PostingQuery.Proofs.JsonText
import PostingQuery.Settings.Json

/-!
Settings as text. An object that gives some of the settings, in any order and with any blanks, is read as
these settings with standard ones for the rest, and then validated. What is written is such an object.
-/

namespace PostingQuery

open Json

inductive GivenSetting where
  | bucketTableSize (value : UInt64)
  | phraseChunkSize (value : UInt64)
  | phraseAdvanceRatio (value : UInt64)
  | phraseMaxNextCalls (value : UInt64)
  | coordDisabled (value : Bool)

namespace GivenSetting

def name : GivenSetting → String
  | bucketTableSize _ => "bucket_table_size"
  | phraseChunkSize _ => "phrase_chunk_size"
  | phraseAdvanceRatio _ => "phrase_advance_ratio"
  | phraseMaxNextCalls _ => "phrase_max_next_calls"
  | coordDisabled _ => "coord_disabled"

def scalar : GivenSetting → Scalar
  | bucketTableSize value | phraseChunkSize value | phraseAdvanceRatio value | phraseMaxNextCalls value =>
    .natural value
  | coordDisabled value => .bool value

def replace (settings : Settings) : GivenSetting → Settings
  | bucketTableSize value => { settings with bucketTableSize := value }
  | phraseChunkSize value => { settings with phraseChunkSize := value }
  | phraseAdvanceRatio value => { settings with phraseAdvanceRatio := value }
  | phraseMaxNextCalls value => { settings with phraseMaxNextCalls := value }
  | coordDisabled value => { settings with coordDisabled := value }

def field (given : GivenSetting) : String × Scalar := (given.name, given.scalar)

def named (given : GivenSetting) : String × Value := (given.name, given.scalar.value)

end GivenSetting

namespace Json.Value

theorem field?_eq_lookup {members : List (String × Value)} (distinct : (members.map (·.1)).Nodup)
    (name : String) : field? members name = some (members.lookup name) := by
  induction members with
  | nil => rfl
  | cons member rest ih =>
    obtain ⟨key, value⟩ := member
    rw [List.map_cons, List.nodup_cons] at distinct
    by_cases same : key = name
    · subst same
      have others : rest.filter (·.1 == key) = [] := by
        refine List.filter_eq_nil_iff.mpr fun member listed found => distinct.1 ?_
        exact List.mem_map.mpr ⟨member, listed, by simpa using found⟩
      rw [field?, List.filter_cons_of_pos (by simp), others, List.lookup_cons_self]
    · rw [field?, List.filter_cons_of_neg (by simpa using same), ← field?, ih distinct.2,
        List.lookup_cons, beq_false_of_ne (Ne.symm same)]

theorem mapM_field? {members : List (String × Value)} (distinct : (members.map (·.1)).Nodup)
    (names : List String) : names.mapM (field? members) = some (names.map fun name => members.lookup name) := by
  induction names with
  | nil => rfl
  | cons name rest ih => simp [field?_eq_lookup distinct, ih]

end Json.Value

namespace Settings

def ofFields? (base : Settings) : List (Option Value) → Option Settings
  | [table, chunk, ratio, calls, disabled] => do
    let bucketTableSize ← given? Value.uint64? base.bucketTableSize table
    let phraseChunkSize ← given? Value.uint64? base.phraseChunkSize chunk
    let phraseAdvanceRatio ← given? Value.uint64? base.phraseAdvanceRatio ratio
    let phraseMaxNextCalls ← given? Value.uint64? base.phraseMaxNextCalls calls
    let coordDisabled ← given? Value.bool? base.coordDisabled disabled
    return {
      bucketTableSize, phraseChunkSize, phraseAdvanceRatio, phraseMaxNextCalls, coordDisabled }
  | _ => none

theorem ofJson?_eq (value : Value) :
    ofJson? value = (value.record? fieldNames).bind (ofFields? standard) := by
  refine congrArg (value.record? fieldNames).bind (funext fun fields => ?_)
  rcases fields with _ | ⟨table, _ | ⟨chunk, _ | ⟨ratio, _ | ⟨calls, _ | ⟨disabled, _ | ⟨more, rest⟩⟩⟩⟩⟩⟩
  all_goals rfl

/-- A member that is given is read as if it were the standard and left out. -/
theorem ofFields?_cons (base : Settings) (given : GivenSetting) (rest : List (String × Value))
    (fresh : given.name ∉ rest.map (·.1)) :
    ofFields? base (fieldNames.map fun name => (given.named :: rest).lookup name) =
      ofFields? (given.replace base) (fieldNames.map fun name => rest.lookup name) := by
  have absent : rest.lookup given.name = none := by
    refine List.lookup_eq_none_iff.mpr fun member listed => bne_iff_ne.mpr fun same => fresh ?_
    exact List.mem_map.mpr ⟨member, listed, same.symm⟩
  -- The setting is looked up under its own name alone. The other fields are looked up in the rest on both sides.
  cases given
  all_goals
    simp only [GivenSetting.name] at absent
    simp [fieldNames, GivenSetting.named, GivenSetting.name, GivenSetting.scalar, GivenSetting.replace,
      ofFields?, List.lookup_cons, absent, given?, uint64?_natural, bool?_bool]

def ofGiven (given : List GivenSetting) : Settings := given.foldl GivenSetting.replace standard

theorem ofFields?_named {given : List GivenSetting} (distinct : (given.map GivenSetting.name).Nodup)
    (base : Settings) :
    ofFields? base (fieldNames.map fun name => (given.map GivenSetting.named).lookup name) =
      some (given.foldl GivenSetting.replace base) := by
  induction given generalizing base with
  | nil => rfl
  | cons first rest ih =>
    rw [List.map_cons, List.nodup_cons] at distinct
    rw [List.map_cons, ofFields?_cons, ih distinct.2, List.foldl_cons]
    rw [List.map_map]
    exact distinct.1

def Gives (text : String) (given : List GivenSetting) : Prop :=
  ∃ members : Members, Spell (given.map GivenSetting.field) members ∧ ObjectText members text.toList

theorem mapM_string?_of_spell {given : List GivenSetting} {members : Members}
    (spell : Spell (given.map GivenSetting.field) members) :
    (memberValues members).mapM (fun (key, value) => (Json.string? key).map (·, value)) =
      some (given.map GivenSetting.named) := by
  rw [Spell, List.forall₂_map_left_iff] at spell
  induction spell with
  | nil => rfl
  | @cons setting member given members here _ ih =>
    obtain ⟨key, scalar⟩ := member
    obtain ⟨spells, rfl⟩ := here
    simp only [memberValues, List.map_cons, List.mapM_cons, spells, Option.map_some] at ih ⊢
    rw [ih]
    rfl

theorem ofJson?_of_gives {package : Package} (strict : package.Strict) {text : String} {given : List GivenSetting}
    (gives : Gives text given) (distinct : (given.map GivenSetting.name).Nodup) :
    (package.read text).bind ofJson? = some (ofGiven given) := by
  obtain ⟨members, spell, spelled⟩ := gives
  have names : (given.map GivenSetting.named).map (·.1) = given.map GivenSetting.name := by
    rw [List.map_map]
    rfl
  rw [strict.reads members text spelled, Option.bind_some, ofJson?_eq, Value.record?, Option.bind_eq_bind,
    mapM_string?_of_spell spell, Option.bind_some, Value.mapM_field? (names ▸ distinct), Option.bind_some,
    ofFields?_named distinct, ofGiven]

def allGiven (settings : Settings) : List GivenSetting :=
  [.bucketTableSize settings.bucketTableSize, .phraseChunkSize settings.phraseChunkSize,
    .phraseAdvanceRatio settings.phraseAdvanceRatio, .phraseMaxNextCalls settings.phraseMaxNextCalls,
    .coordDisabled settings.coordDisabled]

theorem ofGiven_allGiven (settings : Settings) : ofGiven settings.allGiven = settings := rfl

theorem isPlain_name (given : GivenSetting) : given.name.toList.all isPlain = true := by
  have plain : ∀ name ∈ fieldNames, name.toList.all isPlain = true := by decide
  apply plain
  cases given
  all_goals simp [GivenSetting.name, fieldNames]

theorem gives_write {package : Package} (strict : package.Strict) (given : List GivenSetting) :
    Gives (package.write (given.map GivenSetting.field)) given := by
  obtain ⟨members, object, spell⟩ := strict.writes (given.map GivenSetting.field)
    (List.forall_mem_map.mpr fun setting _ => isPlain_name setting)
  exact ⟨members, spell, object⟩

theorem renderBy_eq (package : Package) (settings : Settings) :
    settings.renderBy package = package.write (settings.allGiven.map GivenSetting.field) := rfl

theorem validate_cases (settings : Settings) :
    settings.validate = .ok () ∨ ∃ why, settings.validate = .error (.invalidConfiguration why) := by
  unfold validate
  split
  next why _ => exact .inr ⟨why, rfl⟩
  next => exact .inl rfl

theorem parseBy_of_gives {package : Package} (strict : package.Strict) {text : String} {given : List GivenSetting}
    (gives : Gives text given) (distinct : (given.map GivenSetting.name).Nodup) :
    parseBy package text = (ofGiven given).validate.map fun _ => ofGiven given := by
  rw [parseBy, ofJson?_of_gives strict gives distinct]
  dsimp only
  cases (ofGiven given).validate with
  | ok => rfl
  | error => rfl

theorem validate_of_parseBy {package : Package} {text : String} {settings : Settings}
    (parses : parseBy package text = .ok settings) : settings.validate = .ok () := by
  unfold parseBy at parses
  split at parses
  next => cases parses
  next read _ =>
    split at parses
    next valid =>
      cases parses
      exact valid
    next => cases parses

/-- What settings come back as through any package that reads and writes strict JSON. -/
theorem strict_package_reads_what_validates {package : Package} (strict : package.Strict) :
    (∀ settings : Settings, settings.validate = .ok () → parseBy package (settings.renderBy package) = .ok settings) ∧
    (∀ (text : String) (given : List GivenSetting), Gives text given →
      (given.map GivenSetting.name).Nodup →
      (parseBy package text = .ok (ofGiven given) ↔ (ofGiven given).validate = .ok ()) ∧
      ((ofGiven given).validate ≠ .ok () → ∃ why, parseBy package text = .error (.invalidConfiguration why))) ∧
    ∀ (text : String) (settings : Settings), parseBy package text = .ok settings → settings.validate = .ok () := by
  refine ⟨fun settings valid => ?_, fun text given gives distinct => ⟨⟨validate_of_parseBy, fun valid => ?_⟩,
    fun invalid => ?_⟩, fun text settings => validate_of_parseBy⟩
  · have distinct : (settings.allGiven.map GivenSetting.name).Nodup := by
      change fieldNames.Nodup
      decide
    rw [renderBy_eq, parseBy_of_gives strict (gives_write strict _) distinct, ofGiven_allGiven, valid]
    rfl
  · rw [parseBy_of_gives strict gives distinct, valid]
    rfl
  · rcases validate_cases (ofGiven given) with valid | ⟨why, refused⟩
    · exact absurd valid invalid
    · exact ⟨why, by rw [parseBy_of_gives strict gives distinct, refused]; rfl⟩

/-- Settings that can be used are read back as they were written. An object that gives some settings is
read as these, with the standard values of the others, if they can be used together, and refused for its
settings if not. No settings are ever read that cannot be used. -/
theorem parse_reads_what_validates :
    (∀ settings : Settings, settings.validate = .ok () → parse settings.render = .ok settings) ∧
    (∀ (text : String) (given : List GivenSetting), Gives text given →
      (given.map GivenSetting.name).Nodup →
      (parse text = .ok (ofGiven given) ↔ (ofGiven given).validate = .ok ()) ∧
      ((ofGiven given).validate ≠ .ok () → ∃ why, parse text = .error (.invalidConfiguration why))) ∧
    ∀ (text : String) (settings : Settings), parse text = .ok settings → settings.validate = .ok () :=
  strict_package_reads_what_validates builtIn_strict

/-- The size of the table alone is given, once as 64 and once as 3, which is no power of two. -/
theorem table_size_alone_is_read :
    parse "\x7b\n  \"bucket_table_size\": 64\n\x7d" = .ok { standard with bucketTableSize := 64 } ∧
    (∃ why, parse "\x7b\n  \"bucket_table_size\": 3\n\x7d" = .error (.invalidConfiguration why)) ∧
    parse standard.render = .ok standard := by
  have spelled : "\x7b\n  \"bucket_table_size\": 64\n\x7d" =
      writeLines ([.bucketTableSize 64].map GivenSetting.field) := by decide
  have misspelled : "\x7b\n  \"bucket_table_size\": 3\n\x7d" =
      writeLines ([.bucketTableSize 3].map GivenSetting.field) := by decide
  obtain ⟨back, reads, -⟩ := parse_reads_what_validates
  rw [spelled, misspelled]
  have sixtyFour := reads _ _ (gives_write builtIn_strict [.bucketTableSize 64]) (List.nodup_singleton _)
  have three := reads _ _ (gives_write builtIn_strict [.bucketTableSize 3]) (List.nodup_singleton _)
  exact ⟨sixtyFour.1.mpr rfl, three.2 (by decide), back standard rfl⟩

end Settings

end PostingQuery
