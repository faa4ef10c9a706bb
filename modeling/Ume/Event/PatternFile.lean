import Ume.Event.PatternLearning
import Ume.Lib.Table

/-! The pattern file. Every field that a line has is converted, and a field that is no
number ends the program. A pattern that is written comes back with what its text says,
which is six digits of its scores and nothing of the time it was last seen. -/

namespace Ume

open StreamText

namespace FilePatternRepository

/-- The fields that a line has can be converted. -/
def Converts (num : Numerics) (line : List Char) : Prop :=
  ∀ f ∈ (fields num).zip (pieces ',' line), (f.1 f.2).isSome

instance (num : Numerics) (line : List Char) : Decidable (Converts num line) :=
  inferInstanceAs (Decidable (∀ f ∈ (fields num).zip (pieces ',' line), (f.1 f.2).isSome))

theorem isSome_readFields_iff {p : MemoryPattern}
    {fields : List (List Char → Option (MemoryPattern → MemoryPattern))}
    {parts : List (List Char)} :
    (readFields p fields parts).isSome ↔ ∀ f ∈ fields.zip parts, (f.1 f.2).isSome := by
  induction fields generalizing p parts with
  | nil => simp [readFields]
  | cons field fields ih =>
    cases parts with
    | nil => simp [readFields]
    | cons part parts =>
      rw [readFields, List.zip_cons_cons, List.forall_mem_cons]
      cases hfield : field part with
      | none => simp [hfield]
      | some set => simp [hfield, ih]

theorem isSome_readLines_iff {num : Numerics} {lines : List (List Char)} :
    (readLines num lines).isSome ↔ ∀ line ∈ lines, Converts num line := by
  induction lines with
  | nil => simp [readLines]
  | cons line lines ih =>
    have hline : (readLine num line).isSome ↔ Converts num line := isSome_readFields_iff
    rw [readLines, List.forall_mem_cons, ← hline]
    cases hread : readLine num line with
    | none => simp
    | some pattern => simp [ih]

end FilePatternRepository

namespace PatternLearningEngine

open FilePatternRepository

variable {num : Numerics} {e e' : PatternLearningEngine}

/-- The patterns of a file are loaded without an exception exactly if every field that a
line has can be converted; and an engine that is not restored is as before. -/
theorem load_returns_iff (num : Numerics) :
    (∀ text, (loadPatterns num (some text)).isSome ↔
        ∀ line ∈ pieces '\n' text, Converts num line) ∧
      ∀ (e : PatternLearningEngine) file status e', restore num e file = some (status, e') →
        status ≠ .kOk → e' = e := by
  constructor
  · intro text
    rw [loadPatterns, Option.isSome_map, isSome_readLines_iff]
  · intro e file status e' h hstatus
    obtain ⟨loaded, -, hresult⟩ := Option.map_eq_some_iff.mp h
    cases loaded with
    | error status' => exact (Prod.mk.inj hresult).2.symm
    | ok patterns => exact absurd (Prod.mk.inj hresult).1.symm hstatus

/-- A line of letters ends the program. -/
theorem letters_abort : restore .lp64 {} (some "abc\n".toList) = none := rfl

end PatternLearningEngine

namespace FilePatternRepository

/-- What is read from the line of a pattern. -/
def reread (num : Numerics) (p : MemoryPattern) : Option MemoryPattern :=
  (toBinary64 num.underflows (ofBinary64 p.frequencyScore)).bind fun frequencyScore =>
    (toBinary64 num.underflows (ofBinary64 p.recencyScore)).bind fun recencyScore =>
      (toBinary64 num.underflows (ofBinary64 p.confidence)).map fun confidence =>
        { p with frequencyScore, recencyScore, confidence, lastSeen := 0 }

/-- The fields of a pattern whose text has to be exact. -/
structure Faithful (num : Numerics) (p : MemoryPattern) : Prop where
  lastSeen : p.lastSeen = 0
  frequencyScore :
    toBinary64 num.underflows (ofBinary64 p.frequencyScore) = some p.frequencyScore
  recencyScore : toBinary64 num.underflows (ofBinary64 p.recencyScore) = some p.recencyScore
  confidence : toBinary64 num.underflows (ofBinary64 p.confidence) = some p.confidence

section SavedLine

variable {num : Numerics} {p : MemoryPattern} {c : Char}

theorem notMem_of_isNumberChar {text : List Char} (h : ∀ c ∈ text, isNumberChar c = true)
    (hc : isNumberChar c = false) : c ∉ text := by
  intro hmem
  rw [h c hmem] at hc
  cases hc

theorem pieces_savedLine (p : MemoryPattern) : pieces ',' (savedLine p) =
    [ofNat p.objectId.toNat, ofBinary64 p.frequencyScore, ofBinary64 p.recencyScore,
      ofInt p.lastStride.toInt, ofBinary64 p.confidence, ofNat p.lastAddress.toNat,
      ofNat p.accessCount.toNat] := by
  have hnat (n : Nat) : ',' ∉ ofNat n := notMem_of_isNumberChar isNumberChar_ofNat rfl
  have hint (i : Int) : ',' ∉ ofInt i := notMem_of_isNumberChar isNumberChar_ofInt rfl
  have hdouble (x : Binary64) : ',' ∉ ofBinary64 x :=
    notMem_of_isNumberChar isNumberChar_ofBinary64 rfl
  rw [savedLine, pieces_append_cons (hnat _), pieces_append_cons (hdouble _),
    pieces_append_cons (hdouble _), pieces_append_cons (hint _), pieces_append_cons (hdouble _),
    pieces_append_cons (hnat _), pieces_of_notMem (hnat _) (ofNat_ne_nil _)]

theorem newline_notMem_savedLine (p : MemoryPattern) : '\n' ∉ savedLine p := by
  have hnat (n : Nat) : '\n' ∉ ofNat n := notMem_of_isNumberChar isNumberChar_ofNat rfl
  have hint (i : Int) : '\n' ∉ ofInt i := notMem_of_isNumberChar isNumberChar_ofInt rfl
  have hdouble (x : Binary64) : '\n' ∉ ofBinary64 x :=
    notMem_of_isNumberChar isNumberChar_ofBinary64 rfl
  simp [savedLine, hnat, hint, hdouble]

/-- Whole numbers come back as they were. -/
theorem readLine_savedLine (num : Numerics) (p : MemoryPattern) :
    readLine num (savedLine p) = (reread num p).map some := by
  have hid : toUnsigned 64 (ofNat p.objectId.toNat) = some p.objectId.toNat :=
    toUnsigned_ofNat p.objectId.toNat_lt
  have haddress : toUnsigned 64 (ofNat p.lastAddress.toNat) = some p.lastAddress.toNat :=
    toUnsigned_ofNat p.lastAddress.toNat_lt
  have hcount : toUnsigned num.ulongBits (ofNat p.accessCount.toNat) = some p.accessCount.toNat :=
    toUnsigned_ofNat (p.accessCount.toNat_lt.trans_le
      (Nat.pow_le_pow_right Nat.two_pos num.ulongBits_ge))
  have hstride : toSigned 64 (ofInt p.lastStride.toInt) = some p.lastStride.toInt :=
    toSigned_ofInt p.lastStride.le_toInt p.lastStride.toInt_lt
  rw [readLine, pieces_savedLine, reread]
  simp only [fields, readFields, hid, haddress, hcount, hstride, Option.map_some]
  cases hfrequency : toBinary64 num.underflows (ofBinary64 p.frequencyScore) with
  | none => rfl
  | some frequencyScore =>
    cases hrecency : toBinary64 num.underflows (ofBinary64 p.recencyScore) with
    | none => rfl
    | some recencyScore =>
      cases hconfidence : toBinary64 num.underflows (ofBinary64 p.confidence) with
      | none => rfl
      | some confidence => simp

theorem reread_eq_some_iff : reread num p = some p ↔ Faithful num p := by
  constructor
  · intro h
    obtain ⟨frequencyScore, hfrequency, h⟩ := Option.bind_eq_some_iff.mp h
    obtain ⟨recencyScore, hrecency, h⟩ := Option.bind_eq_some_iff.mp h
    obtain ⟨confidence, hconfidence, h⟩ := Option.map_eq_some_iff.mp h
    have hfrequency' : frequencyScore = p.frequencyScore := congrArg MemoryPattern.frequencyScore h
    have hrecency' : recencyScore = p.recencyScore := congrArg MemoryPattern.recencyScore h
    have hconfidence' : confidence = p.confidence := congrArg MemoryPattern.confidence h
    exact ⟨(congrArg MemoryPattern.lastSeen h).symm, hfrequency' ▸ hfrequency,
      hrecency' ▸ hrecency, hconfidence' ▸ hconfidence⟩
  · intro h
    rw [reread, h.frequencyScore, h.recencyScore, h.confidence]
    simp [← h.lastSeen]

theorem objectId_reread {q : MemoryPattern} (h : reread num p = some q) :
    q.objectId = p.objectId := by
  obtain ⟨frequencyScore, -, h⟩ := Option.bind_eq_some_iff.mp h
  obtain ⟨recencyScore, -, h⟩ := Option.bind_eq_some_iff.mp h
  obtain ⟨confidence, -, rfl⟩ := Option.map_eq_some_iff.mp h
  rfl

variable {patterns : List MemoryPattern}

theorem readLines_cons_savedLine (lines : List (List Char)) :
    readLines num (savedLine p :: lines) =
      (reread num p).bind fun q => (readLines num lines).map (q :: ·) := by
  rw [readLines, readLine_savedLine]
  cases reread num p <;> rfl

/-- Patterns that are exact in the text are all read back. -/
theorem readLines_of_faithful (h : ∀ p ∈ patterns, Faithful num p) :
    readLines num (patterns.map savedLine) = some patterns := by
  induction patterns with
  | nil => rfl
  | cons p patterns ih =>
    obtain ⟨hp, hpatterns⟩ := List.forall_mem_cons.mp h
    rw [List.map_cons, readLines_cons_savedLine, reread_eq_some_iff.mpr hp, ih hpatterns]
    rfl

/-- Every pattern that is read back is one that was written, read again. -/
theorem exists_of_mem_readLines {loaded : List MemoryPattern} {q : MemoryPattern}
    (h : readLines num (patterns.map savedLine) = some loaded) (hq : q ∈ loaded) :
    ∃ p ∈ patterns, reread num p = some q := by
  induction patterns generalizing loaded with
  | nil =>
    obtain rfl := Option.some.inj h
    exact absurd hq List.not_mem_nil
  | cons p patterns ih =>
    rw [List.map_cons, readLines_cons_savedLine] at h
    obtain ⟨first, hfirst, h⟩ := Option.bind_eq_some_iff.mp h
    obtain ⟨rest, hrest, rfl⟩ := Option.map_eq_some_iff.mp h
    rcases List.mem_cons.mp hq with rfl | hq
    · exact ⟨p, List.mem_cons_self, hfirst⟩
    · obtain ⟨p', hp', hreread⟩ := ih hrest hq
      exact ⟨p', List.mem_cons_of_mem _ hp', hreread⟩

theorem loadPatterns_savePatterns (num : Numerics) (patterns : List MemoryPattern)
    (file : Option (List Char)) :
    loadPatterns num (savePatterns true patterns file).2 =
      (readLines num (patterns.map savedLine)).map .ok := by
  have hlines : ∀ line ∈ patterns.map savedLine, '\n' ∉ line := by
    intro line hline
    obtain ⟨p, -, rfl⟩ := List.mem_map.mp hline
    exact newline_notMem_savedLine p
  have hflat := pieces_flatMap hlines
  rw [List.flatMap_map] at hflat
  rw [savePatterns, if_pos rfl, loadPatterns, hflat]

end SavedLine

end FilePatternRepository

namespace PatternLearningEngine

open FilePatternRepository

section Keyed

variable {e e' : PatternLearningEngine}

/-- Patterns are stored under their own objects. -/
def Keyed (e : PatternLearningEngine) : Prop :=
  ∀ id p, e.patternDb.lookup id = some p → p.objectId = id

theorem keyed_insert (h : e.Keyed) {id : UInt64} {p : MemoryPattern} (hp : p.objectId = id)
    {metrics : LearningMetrics} : Keyed ⟨e.patternDb.insert id p, metrics⟩ := by
  intro id' p' hlookup
  by_cases hid : id' = id
  · subst hid
    rw [AList.lookup_insert] at hlookup
    rw [← Option.some.inj hlookup, hp]
  · rw [AList.lookup_insert_ne hid] at hlookup
    exact h id' p' hlookup

theorem objectId_learnStep {p q : MemoryPattern} {address now : UInt64}
    (h : DefaultLearningPolicy.learnStep p address now = some q) : q.objectId = p.objectId := by
  obtain ⟨learned, hlearned, rfl⟩ := Option.map_eq_some_iff.mp h
  show learned.objectId = p.objectId
  split_ifs at hlearned
  · obtain ⟨stride, -, rfl⟩ := Option.map_eq_some_iff.mp hlearned
    rw [DefaultLearningPolicy.learnStride]
    split_ifs <;> rfl
  · rw [← Option.some.inj hlearned]

theorem keyed_learnAccess (h : e.Keyed) {objectId : ObjectId} {address startTime endTime : UInt64}
    (hs : e.learnAccess objectId address startTime endTime = some e') : e'.Keyed := by
  obtain ⟨p, hp, rfl⟩ := Option.map_eq_some_iff.mp hs
  refine keyed_insert h ((objectId_learnStep hp).trans ?_)
  cases hlookup : e.patternDb.lookup objectId with
  | none => rfl
  | some old =>
    simp only [Option.getD_some]
    split_ifs
    · rfl
    · exact h objectId old hlookup

theorem keyed_decayPattern (h : e.Keyed) (decayFactor : Binary64) (id : UInt64) :
    (e.decayPattern decayFactor id).Keyed := by
  rw [decayPattern]
  cases hlookup : e.patternDb.lookup id with
  | none => exact h
  | some p =>
    dsimp only
    split_ifs
    · intro id' p' hlookup'
      by_cases hid : id' = id
      · rw [hid, AList.lookup_erase] at hlookup'
        cases hlookup'
      · rw [AList.lookup_erase_ne hid] at hlookup'
        exact h id' p' hlookup'
    · have hp : (decayed decayFactor p).objectId = id := by
        simp only [decayed]
        exact h id p hlookup
      exact keyed_insert h hp

theorem keyed_step (h : e.Keyed) {a : Action} (hs : e.step a = some e') : e'.Keyed := by
  cases a with
  | learnAccess objectId address startTime endTime => exact keyed_learnAccess h hs
  | decayPatterns decayFactor order =>
    obtain ⟨-, hs⟩ := Option.ite_none_right_eq_some.mp hs
    obtain rfl := Option.some.inj hs
    have hfold (order : List UInt64) (e : PatternLearningEngine) (h : e.Keyed) :
        (order.foldl (decayPattern decayFactor) e).Keyed := by
      induction order generalizing e with
      | nil => exact h
      | cons id order ih => exact ih _ (keyed_decayPattern h decayFactor id)
    exact hfold order e h

theorem keyed_of_run {actions : List Action} (h : Runs.run step {} actions = some e) : e.Keyed :=
  Runs.invariant (fun _ _ _ h hs => keyed_step h hs) (fun _ _ hlookup => by cases hlookup) h

end Keyed

theorem lookup_foldl_insert (loaded : List MemoryPattern)
    (db : AList fun _ : UInt64 => MemoryPattern) (id : UInt64) :
    (loaded.foldl (fun db p => db.insert p.objectId p) db).lookup id =
      (loaded.reverse.find? (·.objectId = id)).or (db.lookup id) := by
  induction loaded generalizing db with
  | nil => rfl
  | cons p loaded ih =>
    rw [List.foldl_cons, ih, List.reverse_cons, List.find?_append, Option.or_assoc]
    congr 1
    by_cases hid : id = p.objectId
    · subst hid
      simp
    · simp [AList.lookup_insert_ne hid, Ne.symm hid]

theorem getPattern_eq_iff {e e' : PatternLearningEngine} {id : ObjectId} :
    e'.getPattern id = e.getPattern id ↔ e'.patternDb.lookup id = e.patternDb.lookup id := by
  rw [getPattern, getPattern]
  cases e'.patternDb.lookup id <;> cases e.patternDb.lookup id <;> simp

section Persist

variable {num : Numerics} {e : PatternLearningEngine} {order : List UInt64} {p : MemoryPattern}

/-- The patterns written are those of the table, each under its own object. -/
theorem Keyed.mem_activePatterns (h : e.Keyed) (horder : order.Perm e.patternDb.keys) :
    p ∈ e.activePatterns order ↔ e.patternDb.lookup p.objectId = some p := by
  rw [activePatterns, List.mem_filterMap]
  constructor
  · rintro ⟨id, -, hlookup⟩
    rwa [h id p hlookup]
  · intro hlookup
    exact ⟨p.objectId, horder.mem_iff.mpr (Table.mem_keys_of_lookup hlookup), hlookup⟩

theorem restore_persist (num : Numerics) (e : PatternLearningEngine) (order : List UInt64)
    (file : Option (List Char)) :
    restore num {} (e.persist true order file).2 =
      (readLines num ((e.activePatterns order).map savedLine)).map fun loaded =>
        let db := loaded.foldl (fun db p => db.insert p.objectId p) ∅
        (.kOk, ⟨db, { learnedPatternsCount := UInt64.ofNat db.entries.length
                      activePatternsCount := UInt64.ofNat db.entries.length }⟩) := by
  rw [restore, persist, loadPatterns_savePatterns, Option.map_map]
  rfl

theorem Keyed.faithful_of_restored (h : e.Keyed) (horder : order.Perm e.patternDb.keys)
    {loaded : List MemoryPattern}
    (hloaded : readLines num ((e.activePatterns order).map savedLine) = some loaded)
    (hp : loaded.reverse.find? (·.objectId = p.objectId) = some p)
    (hlookup : e.patternDb.lookup p.objectId = some p) : Faithful num p := by
  have hmem := List.mem_reverse.mp (List.mem_of_find?_eq_some hp)
  obtain ⟨q, hq, hreread⟩ := exists_of_mem_readLines hloaded hmem
  have hq' := (h.mem_activePatterns horder).mp hq
  rw [← objectId_reread hreread, hlookup] at hq'
  rw [← Option.some.inj hq'] at hreread
  exact reread_eq_some_iff.mp hreread

theorem Keyed.find?_activePatterns (h : e.Keyed) (horder : order.Perm e.patternDb.keys)
    (id : UInt64) :
    (e.activePatterns order).reverse.find? (·.objectId = id) = e.patternDb.lookup id := by
  cases hlookup : e.patternDb.lookup id with
  | none =>
    refine List.find?_eq_none.mpr fun p hp hid => ?_
    have hp' := (h.mem_activePatterns horder).mp (List.mem_reverse.mp hp)
    rw [of_decide_eq_true hid, hlookup] at hp'
    cases hp'
  | some p =>
    have hid := h id p hlookup
    have hmem : p ∈ e.activePatterns order := (h.mem_activePatterns horder).mpr (hid ▸ hlookup)
    cases hfind : (e.activePatterns order).reverse.find? (·.objectId = id) with
    | none =>
      exact absurd (decide_eq_true hid)
        (List.find?_eq_none.mp hfind p (List.mem_reverse.mpr hmem))
    | some q =>
      have hq := (h.mem_activePatterns horder).mp
        (List.mem_reverse.mp (List.mem_of_find?_eq_some hfind))
      have hqid : q.objectId = id := by simpa using List.find?_some hfind
      rw [hqid, hlookup] at hq
      exact hq.symm

/-- What has been learned comes back from the file exactly if no pattern has been seen at a
time and the scores of every pattern are those that their text says. -/
theorem persist_restore_iff {actions : List Action}
    (hrun : Runs.run step {} actions = some e) (horder : order.Perm e.patternDb.keys)
    (file : Option (List Char)) :
    (∃ e', restore num {} (e.persist true order file).2 = some (.kOk, e') ∧
        ∀ id, e'.getPattern id = e.getPattern id) ↔
      ∀ id p, e.patternDb.lookup id = some p → Faithful num p := by
  have hkeyed := keyed_of_run hrun
  have hempty (o : Option MemoryPattern) (id : UInt64) :
      o.or ((∅ : AList fun _ : UInt64 => MemoryPattern).lookup id) = o := by
    rw [AList.lookup_empty, Option.or_none]
  rw [restore_persist]
  constructor
  · rintro ⟨e', hrestore, hsame⟩ id p hlookup
    obtain ⟨loaded, hloaded, hresult⟩ := Option.map_eq_some_iff.mp hrestore
    obtain rfl := (Prod.mk.inj hresult).2
    obtain rfl := hkeyed id p hlookup
    have hfind := (getPattern_eq_iff.mp (hsame p.objectId)).trans hlookup
    rw [lookup_foldl_insert, hempty] at hfind
    exact hkeyed.faithful_of_restored horder hloaded hfind hlookup
  · intro hfaithful
    have hread : readLines num ((e.activePatterns order).map savedLine) =
        some (e.activePatterns order) :=
      readLines_of_faithful fun p hp => hfaithful _ p ((hkeyed.mem_activePatterns horder).mp hp)
    refine ⟨_, by rw [hread]; rfl, fun id => getPattern_eq_iff.mpr ?_⟩
    rw [lookup_foldl_insert, hempty, hkeyed.find?_activePatterns horder]

end Persist

/-- The pattern of an object after its first access, when the clock shows zero. -/
def firstAccess : MemoryPattern where
  objectId := 500
  frequencyScore := Binary64.ofDecimal 1 1
  recencyScore := Binary64.ofNat 1
  lastAddress := 0x5000
  accessCount := 1

theorem persist_restore_firstAccess : ∃ e e',
    Runs.run step {} [.learnAccess 500 0x5000 0 0] = some e ∧
      e.patternDb.entries = [⟨500, firstAccess⟩] ∧
      restore .lp64 {} (e.persist true [500] none).2 = some (.kOk, e') ∧
      ∀ id, e'.getPattern id = e.getPattern id := by
  have hlog : (Runs.run step {} [.learnAccess 500 0x5000 0 0]).map (·.patternDb.entries) =
      some [⟨500, firstAccess⟩] := by decide +kernel
  obtain ⟨e, hrun, hentries⟩ := Option.map_eq_some_iff.mp hlog
  have hkeys : e.patternDb.keys = [500] := by
    rw [AList.keys, hentries]
    rfl
  have hfaithful : Faithful .lp64 firstAccess :=
    ⟨rfl, by decide +kernel, by decide +kernel, by decide +kernel⟩
  have hall : ∀ id p, e.patternDb.lookup id = some p → Faithful .lp64 p := by
    intro id p hlookup
    have hmem := AList.mem_lookup_iff.mp hlookup
    rw [hentries, List.mem_singleton] at hmem
    cases hmem
    exact hfaithful
  obtain ⟨e', hrestore, hsame⟩ :=
    (persist_restore_iff hrun (List.Perm.of_eq hkeys.symm) none).mpr hall
  exact ⟨e, e', hrun, hentries, hrestore, hsame⟩

/-- What a field of the pattern of an object is before the file is written and after it has
been read. -/
def beforeAndAfter {α : Type} (field : MemoryPattern → α) (id : ObjectId) (actions : List Action) :
    Option (Option α × Option α) :=
  (Runs.run step {} actions).bind fun e =>
    (restore .lp64 {} (e.persist true [id] none).2).map fun r =>
      ((e.getPattern id).toOption.map field, (r.2.getPattern id).toOption.map field)

/-- The time of the last access is not written, and of the score after four accesses only
six digits are. -/
theorem restored_pattern_differs :
    beforeAndAfter MemoryPattern.lastSeen 500 [.learnAccess 500 0x5000 1 1] =
        some (some 1, some 0) ∧
      beforeAndAfter MemoryPattern.frequencyScore 500
          (List.replicate 4 (.learnAccess 500 0x5000 0 0)) =
        some (some (Binary64.ofRatio false (6195151647410855 * Binary64.one) (2 ^ 54)),
          some (Binary64.ofDecimal 3439 4)) ∧
      Binary64.ofRatio false (6195151647410855 * Binary64.one) (2 ^ 54) ≠
        Binary64.ofDecimal 3439 4 := by
  decide +kernel

end PatternLearningEngine

end Ume
