import Bepository.Lib.Lines
import Bepository.Lib.Words
import Bepository.Lock.Epoch

/-!
# The env file (`bepository-cli/src/envfile.rs`)

The installer keeps its settings in `KEY=VALUE` lines.  `parse_env_lines` reads them, `set_env_assignment` rewrites the
first assignment of a key or appends one, and `lookup_env` is the first value of a key.

The reader trims a line and takes one pair of quotes off a value; the writer puts neither back.  So what is read after a
write is `unquote (trimEnd value)`: a value that came out of quotes with a blank at its end, or with quotes of its own,
is not read back.  The line ends are not kept either: a carriage return that is left at the end of a line becomes part
of the line end when the text is written.
-/

namespace Bepository.Cli

open Lib List Option

/-! ### The reader and the writer -/

def isWhitespace (c : Char) : Bool :=
  (9 ≤ c.toNat && c.toNat ≤ 13) || c.toNat == 32 || c.toNat == 133 || c.toNat == 160 || c.toNat == 5760 ||
  (8192 ≤ c.toNat && c.toNat ≤ 8202) || c.toNat == 8232 || c.toNat == 8233 || c.toNat == 8239 ||
  c.toNat == 8287 || c.toNat == 12288

def trimStart (s : Str) : Str := s.dropWhile isWhitespace
def trimEnd (s : Str) : Str := s.rdropWhile isWhitespace
def trim (s : Str) : Str := trimEnd (trimStart s)

def unquote (value : Str) : Str :=
  ((value.dropPrefix? ['"']).bind fun v => v.dropSuffix? ['"']).getD value

def splitLine (raw : Str) : Option (Str × Str) :=
  if trim raw = [] ∨ (trim raw).head? = some '#' then none else splitOnce '=' (trim raw)

def parseEnvLines (text : Str) : List (Str × Str) :=
  (lines text).filterMap fun raw => (splitLine raw).map fun p => (p.1, unquote p.2)

/-- The value of the first assignment to `key`. -/
def lookupEnv (text key : Str) : Option Str :=
  ((parseEnvLines text).find? fun p => p.1 = key).map Prod.snd

/-- Whether the line is an assignment to `key`. -/
def assigns (key raw : Str) : Bool := (splitLine raw).any fun p => p.1 = key

def assignment (key value : Str) : Str := key ++ '=' :: value

/-- The loop of `set_env_assignment` with what follows it. -/
def setLoop (key value : Str) : Bool → List Str → Str
  | replaced, [] => if replaced then [] else assignment key value ++ ['\n']
  | replaced, raw :: rest =>
    let isTarget := !replaced && assigns key raw
    (if isTarget then assignment key value else raw) ++ '\n' :: setLoop key value (replaced || isTarget) rest

def setEnvAssignment (text key value : Str) : Str := setLoop key value false (lines text)

/-! ### One line -/

variable {text key value k v raw s : Str} {ls : List Str} {c : Char}

lemma trimEnd_concat (hc : isWhitespace c = true) : trimEnd (s ++ [c]) = trimEnd s :=
  rdropWhile_concat_pos _ _ _ hc

lemma trimEnd_append (hc : isWhitespace c = false) : trimEnd (s ++ c :: v) = s ++ c :: trimEnd v := by
  have hc' : ¬ isWhitespace c = true := by rw [hc]; decide
  induction v using List.reverseRecOn with
  | nil => exact rdropWhile_concat_neg _ _ _ hc'
  | append_singleton v d ih =>
    have hassoc : s ++ c :: (v ++ [d]) = (s ++ c :: v) ++ [d] := by rw [append_assoc]; rfl
    by_cases hd : isWhitespace d = true
    · rw [hassoc, trimEnd_concat hd, trimEnd_concat hd, ih]
    · unfold trimEnd
      rw [hassoc, rdropWhile_concat_neg _ _ _ hd, rdropWhile_concat_neg _ _ _ hd, append_assoc]
      rfl

lemma trim_stripLast : trim (stripLast '\r' raw) = trim raw := by
  rcases stripLast_cases '\r' raw with h | h
  · rw [h]
  · generalize stripLast '\r' raw = l at h
    subst h
    unfold trim trimStart
    rw [dropWhile_append]
    by_cases hl : (l.dropWhile isWhitespace).isEmpty = true
    · rw [if_pos hl, List.isEmpty_iff.1 hl]
      rfl
    · rw [if_neg hl, trimEnd_concat (by decide)]

lemma splitLine_stripLast : splitLine (stripLast '\r' raw) = splitLine raw := by
  unfold splitLine
  rw [trim_stripLast]

structure IsKey (key : Str) : Prop where
  noEquals : '=' ∉ key
  oneLine : '\n' ∉ key
  noComment : key.head? ≠ some '#'
  noBlank : ∀ c, key.head? = some c → isWhitespace c = false

lemma trim_subset : trim raw ⊆ raw :=
  fun _ hc => (dropWhile_sublist _).subset (( rdropWhile_prefix _ _).subset hc)

lemma head?_trim (h : (trim raw).head? = some c) : isWhitespace c = false := by
  have hstart : (trimStart raw).head? = some c := by
    obtain ⟨t, ht⟩ := head?_eq_some_iff.1 h
    have hp : trim raw <+: trimStart raw := rdropWhile_prefix _ _
    rw [ht] at hp
    obtain ⟨r, hr⟩ := hp
    rw [← hr]
    rfl
  by_contra hc
  rw [Bool.not_eq_false] at hc
  have hnot := head?_dropWhile_not isWhitespace raw
  unfold trimStart at hstart
  rw [hstart] at hnot
  simp [hc] at hnot

lemma splitLine_eq_some (h : splitLine raw = some (k, v)) :
    trim raw = k ++ '=' :: v ∧ '=' ∉ k ∧ k.head? ≠ some '#' := by
  unfold splitLine at h
  split_ifs at h with hn
  obtain ⟨heq, hk⟩ := splitOnce_eq_some h
  refine ⟨heq, hk, fun hh => hn (.inr ?_)⟩
  obtain ⟨t, rfl⟩ := head?_eq_some_iff.1 hh
  rw [heq]
  rfl

lemma isKey_of_splitLine (hraw : '\n' ∉ raw) (h : splitLine raw = some (k, v)) : IsKey k := by
  obtain ⟨heq, hk, hc⟩ := splitLine_eq_some h
  have hhead : ∀ c, k.head? = some c → (trim raw).head? = some c := by
    intro c hh
    obtain ⟨t, rfl⟩ := head?_eq_some_iff.1 hh
    rw [heq]
    rfl
  refine ⟨hk, fun hn => hraw (trim_subset ?_), hc, fun c hh => head?_trim (hhead c hh)⟩
  rw [heq]
  exact mem_append_left _ hn

lemma splitLine_assignment (hk : IsKey key) : splitLine (assignment key value) = some (key, trimEnd value) := by
  have htrim : trim (assignment key value) = key ++ '=' :: trimEnd value := by
    have hstart : trimStart (assignment key value) = assignment key value := by
      cases key with
      | nil => exact dropWhile_cons_of_neg (by decide)
      | cons c => exact dropWhile_cons_of_neg (by rw [hk.noBlank c rfl]; decide)
    unfold trim
    rw [hstart]
    exact trimEnd_append (by decide)
  have hread : ¬ (key ++ '=' :: trimEnd value = [] ∨ (key ++ '=' :: trimEnd value).head? = some '#') := by
    rintro (h | h)
    · exact append_ne_nil_of_right_ne_nil _ (cons_ne_nil _ _) h
    · cases key with
      | nil => cases h
      | cons => exact hk.noComment h
  unfold splitLine
  rw [htrim, if_neg hread, splitOnce_append hk.noEquals]

lemma assigns_iff : assigns key raw = true ↔ ∃ v, splitLine raw = some (key, v) := by
  unfold assigns
  rw [Option.any_eq_true]
  constructor
  · rintro ⟨⟨k, v⟩, hs, hk⟩
    exact ⟨v, by rw [hs, ← of_decide_eq_true hk]⟩
  · rintro ⟨v, hs⟩
    exact ⟨(key, v), hs, decide_eq_true rfl⟩

/-! ### The lines of a text -/

def lookupLines (key : Str) (ls : List Str) : Option Str :=
  ((ls.filterMap fun raw => (splitLine raw).map fun p => (p.1, unquote p.2)).find? fun p => p.1 = key).map Prod.snd

lemma lookupLines_cons_of_assigns (h : splitLine raw = some (key, v)) :
    lookupLines key (raw :: ls) = some (unquote v) := by
  unfold lookupLines
  rw [filterMap_cons_some (b := (key, unquote v)) (by rw [h]; rfl), find?_cons_of_pos (by simp)]
  rfl

lemma lookupLines_cons_of_not_assigns (h : assigns key raw = false) :
    lookupLines key (raw :: ls) = lookupLines key ls := by
  unfold lookupLines
  cases hs : splitLine raw with
  | none => rw [filterMap_cons_none (by rw [hs]; rfl)]
  | some p =>
    unfold assigns at h
    rw [hs] at h
    rw [filterMap_cons_some (b := (p.1, unquote p.2)) (by rw [hs]; rfl), find?_cons_of_neg (by simpa using h)]

/-- The lines after `set_env_assignment`. -/
def setLines (key value : Str) : List Str → List Str
  | [] => [assignment key value]
  | raw :: rest => if assigns key raw then assignment key value :: rest else raw :: setLines key value rest

lemma setLoop_eq : setLoop key value true ls = joined '\n' ls ∧
    setLoop key value false ls = joined '\n' (setLines key value ls) := by
  induction ls with
  | nil => simp [setLoop, setLines]
  | cons raw rest ih =>
    refine ⟨?_, ?_⟩
    · rw [joined_cons, ← ih.1]
      rfl
    · by_cases hr : assigns key raw = true
      · simp [setLoop, setLines, hr, ih.1]
      · simp [setLoop, setLines, hr, ih.2]

lemma lookupLines_setLines (hk : IsKey key) : lookupLines key (setLines key value ls) = some (unquote (trimEnd value)) := by
  induction ls with
  | nil => exact lookupLines_cons_of_assigns (splitLine_assignment hk)
  | cons raw rest ih =>
    unfold setLines
    split_ifs with hr
    · exact lookupLines_cons_of_assigns (splitLine_assignment hk)
    · rw [lookupLines_cons_of_not_assigns (Bool.not_eq_true _ ▸ hr), ih]

lemma not_assigns_of_assigns (h : assigns key raw = true) (hne : k ≠ key) : assigns k raw = false := by
  obtain ⟨v, hv⟩ := assigns_iff.1 h
  rw [← Bool.not_eq_true]
  intro hk
  obtain ⟨v', hv'⟩ := assigns_iff.1 hk
  rw [hv] at hv'
  cases hv'
  exact hne rfl

lemma lookupLines_setLines_of_ne (hk : IsKey key) (hne : k ≠ key) :
    lookupLines k (setLines key value ls) = lookupLines k ls := by
  have hnew : assigns k (assignment key value) = false :=
    not_assigns_of_assigns (assigns_iff.2 ⟨_, splitLine_assignment hk⟩) hne
  induction ls with
  | nil => exact lookupLines_cons_of_not_assigns hnew
  | cons raw rest ih =>
    unfold setLines
    split_ifs with hr
    · rw [lookupLines_cons_of_not_assigns hnew, lookupLines_cons_of_not_assigns (not_assigns_of_assigns hr hne)]
    · by_cases hraw : assigns k raw = true
      · obtain ⟨v, hv⟩ := assigns_iff.1 hraw
        rw [lookupLines_cons_of_assigns hv, lookupLines_cons_of_assigns hv]
      · rw [Bool.not_eq_true] at hraw
        rw [lookupLines_cons_of_not_assigns hraw, lookupLines_cons_of_not_assigns hraw, ih]

lemma setLines_setLines (hk : IsKey key) :
    setLines key value ((setLines key value ls).map (stripLast '\r')) = setLines key value ls ↔
      ∀ raw ∈ ls.eraseP (assigns key), ¬ ['\r'] <:+ raw := by
  have hnew : assigns key (stripLast '\r' (assignment key value)) = true :=
    assigns_iff.2 ⟨_, by rw [splitLine_stripLast]; exact splitLine_assignment hk⟩
  induction ls with
  | nil => simp [setLines, hnew]
  | cons raw rest ih =>
    by_cases hr : assigns key raw = true
    · have hrest : rest.map (stripLast '\r') = rest ↔ ∀ l ∈ rest, ¬ ['\r'] <:+ l := by
        conv_lhs => rw [← List.map_id rest, List.map_map, map_inj_left]
        exact forall₂_congr fun l _ => stripLast_eq_self
      rw [eraseP_cons_of_pos hr, ← hrest]
      simp [setLines, hr, hnew]
    · have hstrip : assigns key (stripLast '\r' raw) = assigns key raw := by
        unfold assigns
        rw [splitLine_stripLast]
      rw [eraseP_cons_of_neg hr, forall_mem_cons]
      refine Iff.trans ?_ (and_congr stripLast_eq_self ih)
      simp [setLines, hr, hstrip]

/-! ### Reading what was written -/

lemma notMem_of_mem_setLines (hls : ∀ l ∈ ls, '\n' ∉ l) (hk : '\n' ∉ key) (hv : '\n' ∉ value) :
    ∀ l ∈ setLines key value ls, '\n' ∉ l := by
  have hnew : '\n' ∉ assignment key value := by
    unfold assignment
    rw [mem_append, mem_cons, not_or, not_or]
    exact ⟨hk, by decide, hv⟩
  induction ls with
  | nil =>
    intro l hl
    rw [mem_singleton.1 hl]
    exact hnew
  | cons raw rest ih =>
    intro l hl
    unfold setLines at hl
    split_ifs at hl with hr
    · rcases mem_cons.1 hl with rfl | hl
      · exact hnew
      · exact hls l (mem_cons_of_mem raw hl)
    · rcases mem_cons.1 hl with rfl | hl
      · exact hls l mem_cons_self
      · exact ih (fun l hl => hls l (mem_cons_of_mem raw hl)) l hl

lemma lines_setEnvAssignment (hk : IsKey key) (hv : '\n' ∉ value) :
    lines (setEnvAssignment text key value) = (setLines key value (lines text)).map (stripLast '\r') := by
  unfold setEnvAssignment
  rw [setLoop_eq.2]
  exact lines_joined (notMem_of_mem_setLines (fun l hl => notMem_of_mem_lines hl) hk.oneLine hv)

lemma lookupLines_map_stripLast : lookupLines key (ls.map (stripLast '\r')) = lookupLines key ls := by
  unfold lookupLines
  rw [filterMap_map]
  have hfun : (fun raw => (splitLine raw).map fun p => (p.1, unquote p.2)) ∘ stripLast '\r' =
      fun raw => (splitLine raw).map fun p => (p.1, unquote p.2) := by
    funext raw
    rw [Function.comp_apply, splitLine_stripLast]
  rw [hfun]

section

variable (hk : IsKey key) (hv : '\n' ∉ value)
include hk hv

lemma lookupEnv_setEnvAssignment_eq :
    lookupEnv (setEnvAssignment text key value) k = lookupLines k (setLines key value (lines text)) := by
  have h : lookupEnv (setEnvAssignment text key value) k = lookupLines k (lines (setEnvAssignment text key value)) := rfl
  rw [h, lines_setEnvAssignment hk hv, lookupLines_map_stripLast]

lemma lookupEnv_setEnvAssignment :
    lookupEnv (setEnvAssignment text key value) key = some (unquote (trimEnd value)) := by
  rw [lookupEnv_setEnvAssignment_eq hk hv, lookupLines_setLines hk]

lemma lookupEnv_setEnvAssignment_of_ne (hne : k ≠ key) :
    lookupEnv (setEnvAssignment text key value) k = lookupEnv text k := by
  rw [lookupEnv_setEnvAssignment_eq hk hv, lookupLines_setLines_of_ne hk hne]
  rfl

lemma setEnvAssignment_idem :
    setEnvAssignment (setEnvAssignment text key value) key value = setEnvAssignment text key value ↔
      ∀ raw ∈ (lines text).eraseP (assigns key), ¬ ['\r'] <:+ raw := by
  have hset : ∀ t, setEnvAssignment t key value = joined '\n' (setLines key value (lines t)) := fun _ => setLoop_eq.2
  have hone : ∀ t, ∀ l ∈ setLines key value (lines t), '\n' ∉ l := fun t =>
    notMem_of_mem_setLines (fun l hl => notMem_of_mem_lines hl) hk.oneLine hv
  rw [← setLines_setLines hk, ← lines_setEnvAssignment hk hv, ← joined_inj (hone _) (hone _), ← hset, ← hset]

end

/-! ### What the reader gives -/

lemma isKey_of_mem_parseEnvLines (h : (k, v) ∈ parseEnvLines text) : IsKey k := by
  obtain ⟨raw, hraw, hmap⟩ := mem_filterMap.1 h
  obtain ⟨⟨k', v'⟩, hs, he⟩ := map_eq_some_iff.1 hmap
  cases he
  exact isKey_of_splitLine (notMem_of_mem_lines hraw) hs

lemma unquote_subset : unquote v ⊆ v := by
  intro c hc
  unfold unquote at hc
  cases hp : v.dropPrefix? ['"'] with
  | none =>
    rw [hp] at hc
    exact hc
  | some w =>
    rw [hp, bind_some] at hc
    cases hw : w.dropSuffix? ['"'] with
    | none =>
      rw [hw] at hc
      exact hc
    | some =>
      rw [hw] at hc
      obtain ⟨q, rfl, -⟩ := dropPrefix?_eq_some_iff.1 hp
      rw [dropSuffix?_eq_some.1 hw]
      exact mem_append_right _ (mem_append_left _ hc)

lemma notMem_of_lookupEnv (h : lookupEnv text k = some v) : '\n' ∉ v := by
  obtain ⟨⟨k', v'⟩, hf, he⟩ := map_eq_some_iff.1 h
  cases he
  obtain ⟨raw, hraw, hmap⟩ := mem_filterMap.1 (mem_of_find?_eq_some hf)
  obtain ⟨⟨k', w⟩, hs, he⟩ := map_eq_some_iff.1 hmap
  cases he
  intro hn
  refine notMem_of_mem_lines hraw (trim_subset ?_)
  rw [(splitLine_eq_some hs).1]
  exact mem_append_right _ (mem_cons_of_mem _ (unquote_subset hn))

lemma unquote_of_head?_ne (h : v.head? ≠ some '"') : unquote v = v := by
  have hp : v.dropPrefix? ['"'] = none := by
    rw [← not_isSome_iff_eq_none, isSome_iff_exists]
    rintro ⟨w, hw⟩
    obtain ⟨q, rfl, hq⟩ := dropPrefix?_eq_some_iff.1 hw
    rw [eq_of_beq hq] at h
    exact h rfl
  unfold unquote
  rw [hp]
  rfl

end Bepository.Cli
