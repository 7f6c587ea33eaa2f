import ValueFlow.Proofs.Yaml.Mapping
import ValueFlow.Settings.Text
/-!
# Settings read back

The text of settings is a block mapping that overrides every one of them, so reading it gives the same settings again,
whatever their preset says; only a bound on revisits that is out of range is refused.  Reading checks that bound last,
when a draft is completed, so the settings are valid whatever text the draft is from.
-/
namespace ValueFlow

open Yaml

/-! ## Decimal numbers -/

theorem number?_concat {radix : Nat} {l : List Char} (hne : l ≠ []) (c : Char) :
    number? radix (l ++ [c]) = (number? radix l).bind fun n =>
      (hexDigit? c).bind fun d => if d < radix then some (radix * n + d) else none := by
  simp [number?, hne, List.foldlM_append]

theorem hexDigit?_digitChar {d : Nat} (h : d < 10) : hexDigit? d.digitChar = some d := by
  revert d
  decide

theorem number?_toDigits (n : Nat) : number? 10 (Nat.toDigits 10 n) = some n := by
  induction n using Nat.strongRecOn with
  | ind n ih =>
    rcases Nat.lt_or_ge n 10 with hlt | hge
    · rw [Nat.toDigits_of_lt_base hlt]
      simp [number?, hexDigit?_digitChar hlt, hlt]
    · have hdigit : n % 10 < 10 := Nat.mod_lt n (by decide)
      rw [Nat.toDigits_of_base_le (by decide) hge, number?_concat Nat.toDigits_ne_nil, ih (n / 10) (by omega)]
      simp [hexDigit?_digitChar hdigit, hdigit]
      omega

/-- No number but zero begins with a zero. -/
theorem head?_toDigits {n : Nat} (h : n ≠ 0) : (Nat.toDigits 10 n).head? ≠ some '0' := by
  induction n using Nat.strongRecOn with
  | ind n ih =>
    rcases Nat.lt_or_ge n 10 with hlt | hge
    · have hall : ∀ d < 10, d ≠ 0 → d.digitChar ≠ '0' := by decide
      rw [Nat.toDigits_of_lt_base hlt]
      simp [hall n hlt h]
    · have hhead := ih (n / 10) (by omega) (by omega)
      rw [Nat.toDigits_of_base_le (by decide) hge]
      obtain ⟨c, l, hl⟩ := List.exists_cons_of_ne_nil (Nat.toDigits_ne_nil (n := n / 10) (b := 10))
      rw [hl] at hhead ⊢
      exact hhead

namespace Settings

theorem decimal?_toDigits (n : Nat) : decimal? (Nat.toDigits 10 n) = some n := by
  rw [decimal?, if_neg, number?_toDigits]
  by_cases h : n = 0
  · subst h
    decide
  · simp [head?_toDigits h]

/-- Digits alone have no sign and no mark of a radix. -/
theorem natural?_digits {l : List Char} (h : ∀ c ∈ l, c.isDigit = true) : natural? l = decimal? l := by
  have hno {c : Char} (hc : c ∈ l) (hd : c.isDigit = false) : False := by
    rw [h c hc] at hd
    cases hd
  rw [natural?]
  · rintro rest rfl
    exact hno List.mem_cons_self (by decide)
  all_goals
    rintro rest rfl
    exact hno (List.mem_cons_of_mem _ List.mem_cons_self) (by decide)

theorem natural?_repr (n : Nat) : natural? (Nat.repr n).toList = some n := by
  have hdigits : ∀ c ∈ Nat.toDigits 10 n, c.isDigit = true := fun c hc =>
    Nat.isDigit_of_mem_toDigits (by decide) (by decide) hc
  rw [Nat.toList_repr, natural?_digits hdigits, decimal?_toDigits]

theorem isWord_repr (n : Nat) : IsWord (Nat.repr n).toList := by
  rw [Nat.toList_repr]
  refine ⟨Nat.toDigits_ne_nil, fun c hc => ?_⟩
  obtain ⟨hlow, hhigh⟩ := Char.isDigit_iff_toNat.1 (Nat.isDigit_of_mem_toDigits (by decide) (by decide) hc)
  have hrange : '0' ≤ c ∧ c ≤ '9' := ⟨hlow, hhigh⟩
  simp [isWordChar, hrange]

/-! ## The written settings -/

/-- What the text of settings overrides. -/
def overrideEntries (s : Settings) : List (String × Tree) :=
  [("solver", .mapping [("max_requeue_per_node", .plain (Nat.repr s.maxRequeue.toNat))]),
   ("readonly", .mapping [("propagate_float_constants", .plain (boolText s.floatConstants))]),
   ("builtins", .mapping [("volatile_load_floor", .plain s.volatileFloor.name)]),
   ("liveness_trim", .plain (boolText s.livenessTrim)), ("parallel", .plain (boolText s.parallel))]

def overrideLines (s : Settings) : List Line :=
  [⟨2, "solver", none⟩, ⟨4, "max_requeue_per_node", some (Nat.repr s.maxRequeue.toNat)⟩,
   ⟨2, "readonly", none⟩, ⟨4, "propagate_float_constants", some (boolText s.floatConstants)⟩,
   ⟨2, "builtins", none⟩, ⟨4, "volatile_load_floor", some s.volatileFloor.name⟩,
   ⟨2, "liveness_trim", some (boolText s.livenessTrim)⟩, ⟨2, "parallel", some (boolText s.parallel)⟩]

def entries (s : Settings) : List (String × Tree) :=
  [("version", .plain "1"), ("preset", .plain s.preset.name), ("overrides", .mapping s.overrideEntries)]

def lines (s : Settings) : List Line :=
  ⟨0, "version", some "1"⟩ :: ⟨0, "preset", some s.preset.name⟩ :: ⟨0, "overrides", none⟩ :: (s.overrideLines ++ [])

theorem ofList_linesText_word (col : Nat) (key v : String) (more : List Line) :
    String.ofList (linesText (⟨col, key, some v⟩ :: more)) =
      String.ofList (List.replicate col ' ' ++ (key.toList ++ [':', ' '])) ++
        (v ++ ("\n" ++ String.ofList (linesText more))) := by
  apply String.toList_inj.1
  simp [linesText, Line.text, Line.valueText]

theorem ofList_linesText_none (col : Nat) (key : String) (more : List Line) :
    String.ofList (linesText (⟨col, key, none⟩ :: more)) =
      String.ofList (List.replicate col ' ' ++ (key.toList ++ [':', '\n'])) ++ String.ofList (linesText more) := by
  apply String.toList_inj.1
  simp [linesText, Line.text, Line.valueText]

theorem text_eq_lines (s : Settings) : s.text = String.ofList (linesText s.lines) := by
  delta text
  simp only [lines, overrideLines, List.append_nil, ofList_linesText_word, ofList_linesText_none, String.append_assoc]
  rfl

theorem isWord_boolText (b : Bool) : IsWord (boolText b).toList := by
  cases b <;> decide

theorem isWord_preset (p : Preset) : IsWord p.name.toList := by
  cases p <;> decide

theorem isWord_floor (f : Floor) : IsWord f.name.toList := by
  cases f <;> decide

theorem written_section {name key v : String} (hname : IsKey name.toList) (hkey : IsKey key.toList)
    (hv : IsWord v.toList) {es : List (String × Tree)} {lines : List Line} (hes : Written 2 es lines) :
    Written 2 ((name, .mapping [(key, .plain v)]) :: es) (⟨2, name, none⟩ :: ⟨4, key, some v⟩ :: lines) :=
  .mapping hname (by simp) (by decide) (.word hkey hv (.nil 4)) hes

theorem written_overrideEntries (s : Settings) : Written 2 s.overrideEntries s.overrideLines := by
  refine written_section (by decide) (by decide) (isWord_repr s.maxRequeue.toNat) ?_
  refine written_section (by decide) (by decide) (isWord_boolText s.floatConstants) ?_
  refine written_section (by decide) (by decide) (isWord_floor s.volatileFloor) ?_
  refine .word (by decide) (isWord_boolText s.livenessTrim) ?_
  exact .word (by decide) (isWord_boolText s.parallel) (.nil 2)

theorem written_entries (s : Settings) : Written 0 s.entries s.lines := by
  refine .word (by decide) (by decide) ?_
  refine .word (by decide) (isWord_preset s.preset) ?_
  exact .mapping (by decide) (by simp [overrideEntries]) (by decide) s.written_overrideEntries (.nil 0)

/-! ## Reading them -/

/-- Every setting is overridden. -/
def overrides (s : Settings) : Overrides :=
  ⟨some s.maxRequeue, some s.floatConstants, some s.volatileFloor, some s.livenessTrim, some s.parallel⟩

theorem optional_some {α : Type} {read? : Tree → Option α} {key : String} {es : List (String × Tree)} {n : Tree} {a : α}
    (hlookup : es.lookup key = some n) (hnull : n.isNull = false) (hread : read? n = some a) :
    optional read? key es = some (some a) := by
  simp [optional, hlookup, hnull, hread]

theorem optional_section {α : Type} {read? : Tree → Option α} {name key : String} {es : List (String × Tree)} {n : Tree}
    {a : α} (hlookup : es.lookup name = some (.mapping [(key, n)])) (hread : read? n = some a) (default : α) :
    optional (section? key read? default) name es = some (some a) := by
  have hsection : section? key read? default (.mapping [(key, n)]) = some a := by
    simp [section?, fields?, withDefault, hread]
  exact optional_some hlookup rfl hsection

theorem bool?_boolText (b : Bool) : bool? (.plain (boolText b)) = some b := by
  cases b <;> rfl

theorem ofName?_floor (f : Floor) : Floor.ofName? f.name = some f := by
  cases f <;> rfl

theorem ofName?_preset (p : Preset) : Preset.ofName? p.name = some p := by
  cases p <;> decide +kernel

theorem natBelow?_repr {limit n : Nat} (h : n < limit) : natBelow? limit (.plain (Nat.repr n)) = some n := by
  rw [natBelow?, natural?_repr, Option.bind_some, if_pos h]

theorem isNull_boolText (b : Bool) : Tree.isNull (.plain (boolText b)) = false := by
  cases b <;> rfl

theorem isNull_preset (p : Preset) : Tree.isNull (.plain p.name) = false := by
  cases p <;> rfl

theorem overrides?_entries (s : Settings) : overrides? (.mapping s.overrideEntries) = some s.overrides := by
  have hfields : fields? ["solver", "readonly", "builtins", "liveness_trim", "parallel"] (.mapping s.overrideEntries) =
      some s.overrideEntries := by
    simp [fields?, overrideEntries]
  have hbound : (natBelow? UInt64.size (.plain (Nat.repr s.maxRequeue.toNat))).map UInt64.ofNat =
      some s.maxRequeue := by
    rw [natBelow?_repr s.maxRequeue.toNat_lt_size, Option.map_some, UInt64.ofNat_toNat]
  have hsolver : optional (section? "max_requeue_per_node" (fun n => (natBelow? UInt64.size n).map UInt64.ofNat)
      standard.maxRequeue) "solver" s.overrideEntries = some (some s.maxRequeue) :=
    optional_section rfl hbound _
  have hreadonly : optional (section? "propagate_float_constants" bool? standard.floatConstants) "readonly"
      s.overrideEntries = some (some s.floatConstants) :=
    optional_section rfl (bool?_boolText s.floatConstants) _
  have hbuiltins : optional (section? "volatile_load_floor" (fun n => n.scalar?.bind Floor.ofName?)
      standard.volatileFloor) "builtins" s.overrideEntries = some (some s.volatileFloor) :=
    optional_section rfl (ofName?_floor s.volatileFloor) _
  have htrim : optional bool? "liveness_trim" s.overrideEntries = some (some s.livenessTrim) :=
    optional_some rfl (isNull_boolText s.livenessTrim) (bool?_boolText s.livenessTrim)
  have hparallel : optional bool? "parallel" s.overrideEntries = some (some s.parallel) :=
    optional_some rfl (isNull_boolText s.parallel) (bool?_boolText s.parallel)
  simp [overrides?, hfields, hsolver, hreadonly, hbuiltins, htrim, hparallel, overrides]

theorem draft?_entries (s : Settings) :
    draft? (.mapping s.entries) = some ⟨some 1, some s.preset.name, some s.overrides⟩ := by
  have hfields : fields? ["version", "preset", "overrides"] (.mapping s.entries) = some s.entries := by
    simp [fields?, entries]
  have hversion : optional (natBelow? UInt32.size) "version" s.entries = some (some 1) :=
    optional_some rfl rfl (natBelow?_repr (n := 1) (by decide))
  have hpreset : optional Tree.scalar? "preset" s.entries = some (some s.preset.name) :=
    optional_some rfl (isNull_preset s.preset) rfl
  have hoverrides : optional overrides? "overrides" s.entries = some (some s.overrides) :=
    optional_some rfl rfl s.overrides?_entries
  simp [draft?, hfields, hversion, hpreset, hoverrides]

theorem ofDraft_overrides (s : Settings) : ofDraft ⟨some 1, some s.preset.name, some s.overrides⟩ =
    if s.isValid then .ok s else .error (.outOfRange s.maxRequeue) := by
  simp only [ofDraft, ofName?_preset, ne_eq, not_true_eq_false, if_false]
  change (s.validate.bind fun _ => .ok s) = _
  rw [validate]
  cases s.isValid <;> rfl

theorem ofText_text (s : Settings) :
    ofText s.text = if s.isValid then .ok s else .error (.outOfRange s.maxRequeue) := by
  have hdocument : document? s.text = some (.mapping s.entries) := by
    rw [text_eq_lines, document?_lines s.written_entries (by simp [entries])]
  simp only [ofText, hdocument, Option.bind_some, draft?_entries, ofDraft_overrides]

theorem isValid_of_validated {s t : Settings} (h : (s.validate.bind fun _ => .ok s) = .ok t) : t.isValid = true := by
  unfold validate at h
  split at h
  · rename_i hvalid
    cases h
    exact hvalid
  · cases h

/-- A draft gives valid settings or none: the bound is checked after everything is put together. -/
theorem isValid_of_ofDraft {d : Draft} {s : Settings} (h : ofDraft d = .ok s) : s.isValid = true := by
  unfold ofDraft at h
  dsimp only at h
  -- the version is missing or another one; then the preset is left out, known or unknown
  split at h
  · cases h
  · split at h
    · cases h
    · split at h
      · exact isValid_of_validated h
      · split at h
        · exact isValid_of_validated h
        · cases h

theorem isValid_of_ofText {t : String} {s : Settings} (h : ofText t = .ok s) : s.isValid = true := by
  unfold ofText at h
  split at h
  · exact isValid_of_ofDraft h
  · cases h

theorem validate_ofText_text {s : Settings} (h : s.isValid = true) : s.validate = .ok () ∧ ofText s.text = .ok s := by
  rw [ofText_text, validate, if_pos h, if_pos h]
  exact ⟨rfl, rfl⟩

/-- **The text of settings reads as the same settings**, or is refused for a bound out of range; and what any text reads
as, or any draft gives, is valid, so that its own text reads as the same again. -/
theorem text_readsBack (s : Settings) :
    (ofText s.text = if 1 ≤ s.maxRequeue.toNat ∧ s.maxRequeue.toNat ≤ 1000000 then .ok s
      else .error (.outOfRange s.maxRequeue)) ∧
    (∀ t : String, ofText t = .ok s → s.validate = .ok () ∧ ofText s.text = .ok s) ∧
    ∀ d : Draft, ofDraft d = .ok s → s.validate = .ok () ∧ ofText s.text = .ok s := by
  refine ⟨?_, fun t ht => validate_ofText_text (isValid_of_ofText ht),
    fun d hd => validate_ofText_text (isValid_of_ofDraft hd)⟩
  rw [ofText_text]
  simp [isValid, Nat.lt_iff_add_one_le]

/-- The largest bound, in another radix and in braces. -/
def largestBound : String :=
  "version: 1\npreset: FAST  # in upper case\n" ++
    "overrides: \x7bsolver: \x7bmax_requeue_per_node: 0xF4240\x7d\x7d\n"

/-- The largest bound reads back, and so do the settings of a draft that gives nothing but its version; one more than
the largest bound is refused. -/
theorem text_readsBack_largest :
    ofText largestBound = .ok { ofPreset .fast with maxRequeue := 1000000 } ∧
    ofText (text { ofPreset .fast with maxRequeue := 1000000 }) = .ok { ofPreset .fast with maxRequeue := 1000000 } ∧
    ofDraft ⟨some 1, none, none⟩ = .ok standard ∧ ofText standard.text = .ok standard ∧
    ofText (text { ofPreset .fast with maxRequeue := 1000001 }) = .error (.outOfRange 1000001) := by
  have hread : ofText largestBound = .ok { ofPreset .fast with maxRequeue := 1000000 } := by decide +kernel
  have hdraft : ofDraft ⟨some 1, none, none⟩ = .ok standard := by decide
  refine ⟨hread, ((text_readsBack _).2.1 largestBound hread).2, hdraft, ((text_readsBack _).2.2 _ hdraft).2, ?_⟩
  rw [(text_readsBack _).1]
  decide

end Settings
end ValueFlow
