import Bepository.Cli.EnvFile
import Bepository.Lib.Result
import Bepository.Lib.Table

/-!
# Credentials in drop-ins (`bepository-cli/src/service/credential_wiring.rs`)

`install-service` takes the path of a key file out of the env file, hands it to systemd in a drop-in, and writes the
runtime path in its place; `uninstall-service` reads the drop-in and puts the path back.  There are two credentials: the
parameter `key` of the storage URI, and `GOOGLE_APPLICATION_CREDENTIALS`.

The drop-in is read by lines, and the env file as `Cli.EnvFile` says.  So a path comes back unless it holds a line feed
or ends in a carriage return (the URI), or ends in a blank (the other one, where quotes can protect it).

A host may refuse any call that changes a file.  What is printed is left out.
-/

namespace Bepository.Cli

open Lib List Option

/-! ### URLs and files -/

/-- What is used of the crate `url`. -/
structure UrlCrate where
  Url : Type
  parse : Str → Option Url
  scheme : Url → Str
  queryPairs : Url → List (Str × Str)
  /-- `query_pairs_mut`, with `clear`, `extend_pairs` and `append_pair`. -/
  setPairs : Url → List (Str × Str) → Url
  text : Url → Str

/-- Encoding and decoding are inverse, and the text of a URL with a query is one visible word. -/
structure UrlCrate.Lawful (U : UrlCrate) : Prop where
  parse_text : ∀ {s u ps}, U.parse s = some u → ps ≠ [] → U.parse (U.text (U.setPairs u ps)) = some (U.setPairs u ps)
  queryPairs_setPairs : ∀ u ps, U.queryPairs (U.setPairs u ps) = ps
  scheme_setPairs : ∀ u ps, U.scheme (U.setPairs u ps) = U.scheme u
  oneLine : ∀ {s u ps}, U.parse s = some u → ps ≠ [] → '\n' ∉ U.text (U.setPairs u ps)
  plain : ∀ {s u ps}, U.parse s = some u → ps ≠ [] →
    unquote (trimEnd (U.text (U.setPairs u ps))) = U.text (U.setPairs u ps)

inductive IoError where
  | permissionDenied
  | other (text : String)

inductive FsCall where
  | createDir
  | writeDropin (file : Str)
  | removeDropin (file : Str)
  | removeDir
  | createTmp
  | writeTmp
  | rename

/-- The files that are concerned, and the calls that fail. -/
structure Host where
  envPath : Str
  tmpPath : Str
  dropinDir : Str
  deny : FsCall → Option IoError

inductive InstallError where
  | requiresRoot (cmd verb : String) (path : Str)
  | failed (verb : String) (path : Str) (source : IoError)
  | rewrite (description : String)

def mapFsErr (e : IoError) (cmd verb : String) (path : Str) : InstallError :=
  match e with
  | .permissionDenied => .requiresRoot cmd verb path
  | .other _ => .failed verb path e

/-- A call with `map_err` behind it. -/
def Host.attempt (host : Host) (call : FsCall) (cmd verb : String) (path : Str) : Except InstallError Unit :=
  match host.deny call with
  | none => .ok ()
  | some e => .error (mapFsErr e cmd verb path)

def Host.dropinPath (host : Host) (file : Str) : Str := host.dropinDir ++ '/' :: file

/-- `write_env_atomic`; the temporary file does not stay. -/
def writeEnvAtomic (host : Host) (cmd : String) : Except InstallError Unit :=
  (host.attempt .createTmp cmd "creating" host.tmpPath).bind fun _ =>
  (host.attempt .writeTmp cmd "writing" host.tmpPath).bind fun _ =>
  host.attempt .rename cmd "replacing" host.envPath

/-- The drop-in directory, if it is there, with its files; `none` is one that cannot be read as text. -/
abbrev Dropins := Option (Table Str (Option Str))

def Dropins.lookup (dir : Dropins) (file : Str) : Option (Option Str) := dir.bind fun files => AList.lookup file files

/-- `read_to_string`. -/
def Dropins.read (dir : Dropins) (file : Str) : Option Str := (Dropins.lookup dir file).join

def Dropins.remove (dir : Dropins) (file : Str) : Dropins := dir.map fun files => AList.erase file files

/-- `Path::extension`. -/
def extension (file : Str) : Option Str :=
  match rsplitOnce '.' file with
  | some (stem, ext) => if stem = [] then none else some ext
  | none => none

/-! ### Where a value points -/

def SERVICE_NAME : Str := "bepository.service".toList

def runtimeCredentialsDir : Str := "/run/credentials/".toList ++ SERVICE_NAME

def runtimePath (name : Str) : Str := runtimeCredentialsDir ++ '/' :: name

inductive CredentialSource where
  | absent
  | relative (value : Str)
  | absoluteLocal (value : Str)
  | absoluteWired (name : Str)
  | absoluteForeign
  deriving DecidableEq

def classifyCredentialSource : Option Str → CredentialSource
  | none | some [] => .absent
  | some value =>
    match value.dropPrefix? (runtimeCredentialsDir ++ ['/']) with
    | some name => .absoluteWired name
    | none =>
      if "/run/credentials/".toList.isPrefixOf value then .absoluteForeign
      else if value.head? = some '/' then .absoluteLocal value
      else .relative value

/-! ### The two credentials -/

structure Credential where
  name : Str
  description : String
  /-- `none` if the detector does not apply, `some none` if there is no value. -/
  extract : Str → Option (Option Str)
  set : Str → Str → Option Str
  restore : Str → Str → Str → Option Str
  adhocValue : Str → Str → Option Str

def STORAGE_URI : Str := "BEPOSITORY_STORAGE_URI".toList
def GCS_KEY : Str := "GOOGLE_APPLICATION_CREDENTIALS".toList
def KEY_PARAM : Str := "key".toList
def SFTP : Str := "sftp".toList

section Credentials

variable (U : UrlCrate)

def sftpUri (env : Str) : Option U.Url :=
  ((lookupEnv env STORAGE_URI).bind U.parse).filter fun url => U.scheme url = SFTP

def sftpKeyParam (url : U.Url) : Option Str :=
  ((U.queryPairs url).find? fun p => p.1 = KEY_PARAM).map Prod.snd

def rewrittenPairs (url : U.Url) (newPath : Str) : List (Str × Str) :=
  (U.queryPairs url).filter (fun p => p.1 ≠ KEY_PARAM) ++ [(KEY_PARAM, newPath)]

def rewriteSftpKey (url : U.Url) (newPath : Str) : Str := U.text (U.setPairs url (rewrittenPairs U url newPath))

def sftpExtract (env : Str) : Option (Option Str) := (sftpUri U env).map (sftpKeyParam U)

def sftpSet (env new : Str) : Option Str :=
  (sftpUri U env).map fun url => setEnvAssignment env STORAGE_URI (rewriteSftpKey U url new)

def sftpRestore (env runtime source : Str) : Option Str :=
  (sftpUri U env).bind fun url => (sftpKeyParam U url).bind fun key =>
    if key = runtime then sftpSet U env source else none

def sftpAdhocValue (env source : Str) : Option Str :=
  (sftpUri U env).bind fun url =>
    if sftpKeyParam U url = some source then lookupEnv env STORAGE_URI else some (rewriteSftpKey U url source)

def gcsExtract (env : Str) : Option (Option Str) := some (lookupEnv env GCS_KEY)

def gcsSet (env new : Str) : Option Str := some (setEnvAssignment env GCS_KEY new)

def gcsRestore (env runtime source : Str) : Option Str :=
  (lookupEnv env GCS_KEY).bind fun value => if value = runtime then gcsSet env source else none

def gcsAdhocValue (_ source : Str) : Option Str := some source

def sftpKey : Credential where
  name := "sftp-key".toList
  description := "the SFTP key in BEPOSITORY_STORAGE_URI"
  extract := sftpExtract U
  set := sftpSet U
  restore := sftpRestore U
  adhocValue := sftpAdhocValue U

def gcsSaKey : Credential where
  name := "gcs-sa-key".toList
  description := "GOOGLE_APPLICATION_CREDENTIALS"
  extract := gcsExtract
  set := gcsSet
  restore := gcsRestore
  adhocValue := gcsAdhocValue

def CREDENTIALS : List Credential := [sftpKey U, gcsSaKey]

end Credentials

def Credential.file (c : Credential) : Str := c.name ++ ".conf".toList

/-! ### Drop-ins -/

def LOAD_CREDENTIAL : Str := "LoadCredential=".toList

def dropinContent (name source : Str) : Str :=
  joined '\n' ["# Managed by `bepository install-service` — do not edit; uninstall-service removes it.".toList,
    "[Service]".toList, LOAD_CREDENTIAL ++ name ++ ':' :: source]

def parseLoadCredential (content : Str) : Option (Str × Str) :=
  (lines content).findSome? fun line => ((trimStart line).dropPrefix? LOAD_CREDENTIAL).bind (splitOnce ':')

def dropinCredentialSource (dir : Dropins) (name : Str) : Option Str :=
  let files := ((dir.getD ∅).toList.filter fun f => extension f.1 = some "conf".toList).filterMap Prod.snd
  files.findSome? fun content => (lines content).findSome? fun line =>
    (trimStart line).dropPrefix? (LOAD_CREDENTIAL ++ name ++ [':'])

def writeIfChanged (host : Host) (files : Table Str (Option Str)) (file content : Str) :
    Except InstallError (Bool × Table Str (Option Str)) :=
  if files.lookup file = some (some content) then .ok (false, files)
  else (host.attempt (.writeDropin file) "install-service" "writing" (host.dropinPath file)).map fun _ =>
    (true, files.insert file (some content))

inductive WiringOutcome where
  | untouched
  | wired (dropinChanged : Bool) (adhoc : Option Str)
  | alreadyWired (adhoc : Option Str)
  | unwired
  | relativeWarned

/-! ### Wiring -/

/-- `wire_credential`: the env text, the outcome and the drop-ins. -/
def wireCredential (host : Host) (c : Credential) (env : Str) (dir : Dropins) :
    Except InstallError (Str × WiringOutcome × Dropins) :=
  match c.extract env with
  | none => .ok (env, .untouched, dir)
  | some value =>
    match classifyCredentialSource value with
    | .absent =>
      if (Dropins.lookup dir c.file).isSome then
        (host.attempt (.removeDropin c.file) "install-service" "removing" (host.dropinPath c.file)).map fun _ =>
          (env, .unwired, Dropins.remove dir c.file)
      else .ok (env, .untouched, dir)
    | .relative _ => .ok (env, .relativeWarned, dir)
    | .absoluteForeign => .ok (env, .untouched, dir)
    | .absoluteLocal source =>
      (host.attempt .createDir "install-service" "creating" host.dropinDir).bind fun _ =>
      (writeIfChanged host (dir.getD ∅) c.file (dropinContent c.name source)).bind fun written =>
        match c.set env (runtimePath c.name) with
        | none => .error (.rewrite c.description)
        | some text => .ok (text, .wired written.1 (c.adhocValue env source), some written.2)
    | .absoluteWired name =>
      .ok (env, .alreadyWired ((dropinCredentialSource dir name).bind (c.adhocValue env)), dir)

/-- The loop of `wire_credential_dropins`. -/
def wireAll (host : Host) : List Credential → Str → Dropins →
    Except InstallError (Str × List (Str × WiringOutcome) × Dropins)
  | [], env, dir => .ok (env, [], dir)
  | c :: cs, env, dir =>
    (wireCredential host c env dir).bind fun r =>
    (wireAll host cs r.1 r.2.2).map fun s => (s.1, (c.name, r.2.1) :: s.2.1, s.2.2)

def wireCredentialDropins (U : UrlCrate) (host : Host) (env : Str) (dir : Dropins) :
    Except InstallError (Str × List (Str × WiringOutcome) × Dropins) :=
  wireAll host (CREDENTIALS U) env dir

/-! ### Unwiring -/

/-- The env text with the value of one credential put back, if its drop-in says what it was. -/
def restored (c : Credential) (dir : Dropins) (text : Str) : Option Str :=
  (Dropins.read dir c.file).bind fun content => (parseLoadCredential content).bind fun p =>
    c.restore text (runtimePath p.1) p.2

def restoreAll (dir : Dropins) : List Credential → Str → Str × Bool
  | [], text => (text, false)
  | c :: cs, text =>
    match restored c dir text with
    | some new => ((restoreAll dir cs new).1, true)
    | none => restoreAll dir cs text

def removeAll (host : Host) : List Credential → Dropins → Except InstallError Dropins
  | [], dir => .ok dir
  | c :: cs, dir =>
    if (Dropins.lookup dir c.file).isSome then
      (host.attempt (.removeDropin c.file) "uninstall-service" "removing" (host.dropinPath c.file)).bind fun _ =>
        removeAll host cs (Dropins.remove dir c.file)
    else removeAll host cs dir

def removeDir (host : Host) (dir : Dropins) : Dropins :=
  if (host.deny .removeDir).isNone then dir.filter fun files => files.entries ≠ [] else dir

/-- `unwire_credential_dropins`, with the text of the env file, if it can be read. -/
def unwireCredentialDropins (U : UrlCrate) (host : Host) (env : Option Str) (dir : Dropins) :
    Except InstallError (Option Str × Dropins) :=
  let result := env.map (restoreAll dir (CREDENTIALS U))
  (if result.any Prod.snd then writeEnvAtomic host "uninstall-service" else .ok ()).bind fun _ =>
  (removeAll host (CREDENTIALS U) dir).map fun dir => (result.map Prod.fst, removeDir host dir)

/-! ### The laws of a credential -/

/-- A credential is the value of one key of the env file, as far as `kept` says: it can be set and read back. -/
structure Credential.Lawful (c : Credential) (key : Str) (kept : Str → Str) : Prop where
  congr : ∀ {t t'}, lookupEnv t key = lookupEnv t' key → c.extract t = c.extract t'
  set : ∀ {t v new}, c.extract t = some v → '\n' ∉ new → ∃ t', c.set t new = some t' ∧
    c.extract t' = some (some (kept new)) ∧ ∀ k, k ≠ key → lookupEnv t' k = lookupEnv t k
  restore : ∀ t runtime source,
    c.restore t runtime source = if c.extract t = some (some runtime) then c.set t source else none
  runtime : kept (runtimePath c.name) = runtimePath c.name
  name : '\n' ∉ c.name ∧ ':' ∉ c.name

section Laws

variable {U : UrlCrate} {t env : Str} {u : U.Url}

lemma isKey_storageUri : IsKey STORAGE_URI := ⟨by decide, by decide, by decide, fun c h => by cases h; decide⟩

lemma isKey_gcsKey : IsKey GCS_KEY := ⟨by decide, by decide, by decide, fun c h => by cases h; decide⟩

lemma sftpUri_eq_some : sftpUri U t = some u ↔
    ∃ s, lookupEnv t STORAGE_URI = some s ∧ U.parse s = some u ∧ U.scheme u = SFTP := by
  unfold sftpUri
  rw [filter_eq_some_iff, bind_eq_some_iff, decide_eq_true_eq]
  constructor
  · rintro ⟨⟨s, hs, hu⟩, hsch⟩
    exact ⟨s, hs, hu, hsch⟩
  · rintro ⟨s, hs, hu, hsch⟩
    exact ⟨⟨s, hs, hu⟩, hsch⟩

lemma sftpKeyParam_rewritten (hU : U.Lawful) (new : Str) :
    sftpKeyParam U (U.setPairs u (rewrittenPairs U u new)) = some new := by
  have hnone : ((U.queryPairs u).filter fun p => p.1 ≠ KEY_PARAM).find? (fun p => p.1 = KEY_PARAM) = none := by
    rw [find?_eq_none]
    intro p hp
    simpa using (mem_filter.1 hp).2
  unfold sftpKeyParam
  rw [hU.queryPairs_setPairs, rewrittenPairs, find?_append, hnone]
  rfl

lemma sftpUri_set (hU : U.Lawful) (hu : sftpUri U t = some u) (new : Str) :
    sftpUri U (setEnvAssignment t STORAGE_URI (rewriteSftpKey U u new)) =
      some (U.setPairs u (rewrittenPairs U u new)) := by
  obtain ⟨s, -, hparse, hsch⟩ := sftpUri_eq_some.1 hu
  have hne : rewrittenPairs U u new ≠ [] := append_ne_nil_of_right_ne_nil _ (cons_ne_nil _ _)
  refine sftpUri_eq_some.2 ⟨rewriteSftpKey U u new, ?_, hU.parse_text hparse hne, (hU.scheme_setPairs _ _).trans hsch⟩
  have hline : '\n' ∉ rewriteSftpKey U u new := hU.oneLine hparse hne
  rw [lookupEnv_setEnvAssignment isKey_storageUri hline]
  exact congrArg some (hU.plain hparse hne)

lemma sftpRestore_eq (runtime source : Str) : sftpRestore U t runtime source =
    if sftpExtract U t = some (some runtime) then sftpSet U t source else none := by
  unfold sftpRestore sftpExtract
  cases sftpUri U t with
  | none => rfl
  | some u => cases hk : sftpKeyParam U u <;> simp [hk]

theorem lawful_sftpKey (hU : U.Lawful) : (sftpKey U).Lawful STORAGE_URI id where
  congr := by
    intro t t' h
    show sftpExtract U t = sftpExtract U t'
    unfold sftpExtract sftpUri
    rw [h]
  set := by
    intro t v new hv _
    obtain ⟨u, hu, -⟩ := map_eq_some_iff.1 hv
    obtain ⟨s, -, hparse, -⟩ := sftpUri_eq_some.1 hu
    have hline : '\n' ∉ rewriteSftpKey U u new :=
      hU.oneLine hparse (append_ne_nil_of_right_ne_nil _ (cons_ne_nil _ _))
    refine ⟨setEnvAssignment t STORAGE_URI (rewriteSftpKey U u new), ?_, ?_, fun k hk => ?_⟩
    · show sftpSet U t new = _
      unfold sftpSet
      rw [hu]
      rfl
    · show sftpExtract U _ = _
      unfold sftpExtract
      rw [sftpUri_set hU hu, map_some, sftpKeyParam_rewritten hU]
      rfl
    · exact lookupEnv_setEnvAssignment_of_ne isKey_storageUri hline hk
  restore _ := sftpRestore_eq
  runtime := rfl
  name := ⟨by show _ ∉ "sftp-key".toList; decide, by show _ ∉ "sftp-key".toList; decide⟩

theorem lawful_gcsSaKey : gcsSaKey.Lawful GCS_KEY fun v => unquote (trimEnd v) where
  congr h := congrArg some h
  set := by
    intro t v new _ hn
    exact ⟨_, rfl, congrArg some (lookupEnv_setEnvAssignment isKey_gcsKey hn),
      fun k hk => lookupEnv_setEnvAssignment_of_ne isKey_gcsKey hn hk⟩
  restore t runtime source := by
    show gcsRestore t runtime source = if gcsExtract t = some (some runtime) then gcsSet t source else none
    unfold gcsRestore gcsExtract
    cases lookupEnv t GCS_KEY <;> simp
  runtime := by decide
  name := by decide

end Laws

/-! ### One credential, there and back -/

section Wiring

variable {host : Host} {c : Credential} {key name src env env' text text' : Str} {kept : Str → Str}
  {dir dir' : Dropins} {outcome : WiringOutcome}

lemma classify_eq_local {value : Option Str} (h : classifyCredentialSource value = .absoluteLocal src) :
    value = some src ∧ src.head? = some '/' := by
  unfold classifyCredentialSource at h
  split at h
  · cases h
  · cases h
  · split at h
    · cases h
    · split_ifs at h with hf hs
      cases h
      exact ⟨rfl, hs⟩

/-- What is read of a path that was written on a line. -/
def readBack (src : Str) : Str := stripLast '\r' (src.takeWhile (· ≠ '\n'))

lemma exists_firstLine (src : Str) : ∃ rest, src ++ ['\n'] = src.takeWhile (· ≠ '\n') ++ '\n' :: rest := by
  induction src with
  | nil => exact ⟨[], rfl⟩
  | cons c src ih =>
    by_cases hc : c = '\n'
    · exact ⟨src ++ ['\n'], by simp [hc]⟩
    · obtain ⟨rest, hrest⟩ := ih
      exact ⟨rest, by simp [hc, hrest]⟩

lemma notMem_firstLine (src : Str) : '\n' ∉ src.takeWhile (· ≠ '\n') := by
  intro h
  simpa using mem_takeWhile_imp h

lemma notMem_readBack (src : Str) : '\n' ∉ readBack src := by
  unfold readBack
  rcases stripLast_cases '\r' (src.takeWhile (· ≠ '\n')) with h | h
  · rw [h]
    exact notMem_firstLine src
  · intro hmem
    refine notMem_firstLine src ?_
    rw [h]
    exact mem_append_left _ hmem

lemma firstLine_eq_self (h : '\n' ∉ src) : src.takeWhile (· ≠ '\n') = src := by
  rw [takeWhile_eq_self_iff]
  intro c hc
  have hne : c ≠ '\n' := by
    rintro rfl
    exact h hc
  simpa using hne

lemma readBack_eq_self : readBack src = src ↔ '\n' ∉ src ∧ ¬ ['\r'] <:+ src := by
  constructor
  · intro h
    have hline : '\n' ∉ src := h ▸ notMem_readBack src
    refine ⟨hline, ?_⟩
    rwa [readBack, firstLine_eq_self hline, stripLast_eq_self] at h
  · rintro ⟨hline, hret⟩
    rw [readBack, firstLine_eq_self hline, stripLast_eq_self.2 hret]

lemma parseLoadCredential_dropinContent (hn : '\n' ∉ name ∧ ':' ∉ name) :
    parseLoadCredential (dropinContent name src) = some (name, readBack src) := by
  obtain ⟨rest, hrest⟩ := exists_firstLine src
  have hline : '\n' ∉ LOAD_CREDENTIAL ++ name ++ ':' :: src.takeWhile (· ≠ '\n') := by
    simp only [mem_append, mem_cons, not_or]
    exact ⟨⟨by decide, hn.1⟩, by decide, notMem_firstLine src⟩
  have hcontent : dropinContent name src =
      "# Managed by `bepository install-service` — do not edit; uninstall-service removes it.".toList ++ '\n' ::
        ("[Service]".toList ++ '\n' ::
          ((LOAD_CREDENTIAL ++ name ++ ':' :: src.takeWhile (· ≠ '\n')) ++ '\n' :: rest)) := by
    rw [append_assoc _ _ ('\n' :: rest), cons_append, ← hrest]
    simp [dropinContent]
  have hread : ((trimStart (LOAD_CREDENTIAL ++ name ++ ':' :: readBack src)).dropPrefix? LOAD_CREDENTIAL).bind
      (splitOnce ':') = some (name, readBack src) := by
    have hstart : trimStart (LOAD_CREDENTIAL ++ name ++ ':' :: readBack src) =
        LOAD_CREDENTIAL ++ name ++ ':' :: readBack src := dropWhile_cons_of_neg (by decide)
    have hsuffix : (LOAD_CREDENTIAL ++ name ++ ':' :: readBack src).dropPrefix? LOAD_CREDENTIAL =
        some (name ++ ':' :: readBack src) :=
      dropPrefix?_eq_some_iff.2 ⟨LOAD_CREDENTIAL, by rw [append_assoc], beq_self_eq_true _⟩
    rw [hstart, hsuffix]
    exact splitOnce_append hn.2
  unfold parseLoadCredential
  rw [hcontent, lines_append (by decide), lines_append (by decide), lines_append hline, stripLast_append (by decide)]
  rw [findSome?_cons_of_isNone (by decide), findSome?_cons_of_isNone (by decide), findSome?_cons]
  unfold readBack at hread ⊢
  rw [hread]

/-- How a credential stands after the wiring: as before, or with its path in the drop-in. -/
inductive Wired (c : Credential) (env text : Str) (dir : Dropins) : Prop
  | same (value : c.extract text = c.extract env) (file : Dropins.read dir c.file = none)
      (notLocal : ∀ src, c.extract env = some (some src) → classifyCredentialSource (some src) ≠ .absoluteLocal src)
  | wired src (source : c.extract env = some (some src))
      (isLocal : classifyCredentialSource (some src) = .absoluteLocal src)
      (value : c.extract text = some (some (runtimePath c.name)))
      (file : Dropins.read dir c.file = some (dropinContent c.name src))

lemma Wired.frame (hc : c.Lawful key kept) (h : Wired c env text dir) (he : lookupEnv env' key = lookupEnv env key)
    (ht : lookupEnv text' key = lookupEnv text key) (hd : Dropins.lookup dir' c.file = Dropins.lookup dir c.file) :
    Wired c env' text' dir' := by
  have hread : Dropins.read dir' c.file = Dropins.read dir c.file := congrArg Option.join hd
  cases h with
  | same hv hf hl =>
    refine .same ?_ (hread.trans hf) fun src hs => hl src ((hc.congr he).symm.trans hs)
    rw [hc.congr ht, hv, hc.congr he]
  | wired src hs hl hv hf => exact .wired src ((hc.congr he).trans hs) hl ((hc.congr ht).trans hv) (hread.trans hf)

lemma Dropins.lookup_getD (dir : Dropins) (file : Str) :
    Dropins.lookup dir file = AList.lookup file (dir.getD ∅ : Table Str (Option Str)) := by
  cases dir <;> rfl

lemma writeIfChanged_ok {files : Table Str (Option Str)} {file content : Str} {r : Bool × Table Str (Option Str)}
    (h : writeIfChanged host files file content = .ok r) :
    AList.lookup file r.2 = some (some content) ∧ ∀ f, f ≠ file → AList.lookup f r.2 = AList.lookup f files := by
  unfold writeIfChanged at h
  split_ifs at h with hsame
  · cases h
    exact ⟨hsame, fun _ _ => rfl⟩
  · obtain ⟨-, -, rfl⟩ := map_eq_ok.1 h
    exact ⟨AList.lookup_insert _, fun f hf => AList.lookup_insert_ne hf⟩

lemma notMem_runtimePath (h : '\n' ∉ name) : '\n' ∉ runtimePath name := by
  unfold runtimePath
  rw [mem_append, mem_cons, not_or, not_or]
  exact ⟨by decide, by decide, h⟩

lemma wireCredential_wired (hc : c.Lawful key kept) (hd : Dropins.lookup dir c.file = none)
    (h : wireCredential host c env dir = .ok (text, outcome, dir')) :
    Wired c env text dir' ∧ (∀ k, k ≠ key → lookupEnv text k = lookupEnv env k) ∧
      ∀ file, file ≠ c.file → Dropins.lookup dir' file = Dropins.lookup dir file := by
  have hread : Dropins.read dir c.file = none := congrArg Option.join hd
  have hsame : (∀ value, c.extract env = some value → ∀ src, classifyCredentialSource value ≠ .absoluteLocal src) →
      Wired c env env dir ∧ (∀ k, k ≠ key → lookupEnv env k = lookupEnv env k) ∧
      ∀ file, file ≠ c.file → Dropins.lookup dir file = Dropins.lookup dir file :=
    fun hl => ⟨.same rfl hread fun src hs => hl _ hs src, fun _ _ => rfl, fun _ _ => rfl⟩
  unfold wireCredential at h
  split at h
  · next hnone =>
    cases h
    exact hsame fun value hv => by simp [hnone] at hv
  · next value hv =>
    have hclass : ∀ {cl}, classifyCredentialSource value = cl → (∀ src, cl ≠ .absoluteLocal src) →
        ∀ value, c.extract env = some value → ∀ src, classifyCredentialSource value ≠ .absoluteLocal src := by
      intro cl hcl hne value' hv' src
      rw [hv] at hv'
      cases hv'
      rw [hcl]
      exact hne src
    split at h
    · next hcl =>
      rw [hd] at h
      cases h
      exact hsame (hclass hcl (by simp))
    · next hcl =>
      cases h
      exact hsame (hclass hcl (by simp))
    · next hcl =>
      cases h
      exact hsame (hclass hcl (by simp))
    · next src hl =>
      obtain ⟨rfl, hslash⟩ := classify_eq_local hl
      obtain ⟨-, -, h⟩ := bind_eq_ok.1 h
      obtain ⟨r, hw, h⟩ := bind_eq_ok.1 h
      obtain ⟨hfile, hother⟩ := writeIfChanged_ok hw
      obtain ⟨t', hset, hvalue, hkeys⟩ := hc.set hv (notMem_runtimePath hc.name.1)
      rw [hset] at h
      cases h
      rw [hc.runtime] at hvalue
      refine ⟨.wired src hv hl hvalue (congrArg Option.join hfile), hkeys, fun file hne => ?_⟩
      rw [Dropins.lookup_getD dir]
      exact hother file hne
    · next hcl =>
      cases h
      exact hsame (hclass hcl (by simp))

/-- A local path is what is read of it in the drop-in and then in the env file. -/
def Credential.Carries (c : Credential) (kept : Str → Str) (env : Str) : Prop :=
  ∀ src, c.extract env = some (some src) → classifyCredentialSource (some src) = .absoluteLocal src →
    kept (readBack src) = src

lemma restored_wired (hc : c.Lawful key kept) (hw : Wired c env text dir) :
    (c.extract ((restored c dir text).getD text) = c.extract env ↔ c.Carries kept env) ∧
      ∀ k, k ≠ key → lookupEnv ((restored c dir text).getD text) k = lookupEnv text k := by
  cases hw with
  | same hv hf hl =>
    have hnone : restored c dir text = none := by
      unfold restored
      rw [hf]
      rfl
    rw [hnone]
    exact ⟨iff_of_true hv fun src hs hlocal => absurd hlocal (hl src hs), fun _ _ => rfl⟩
  | wired src hs hl hv hf =>
    obtain ⟨t', hset, hvalue, hkeys⟩ := hc.set hv (notMem_readBack src)
    have hsome : restored c dir text = some t' := by
      unfold restored
      rw [hf, bind_some, parseLoadCredential_dropinContent hc.name, bind_some, hc.restore, if_pos hv, hset]
    rw [hsome, getD_some, hvalue, hs, some_inj, some_inj]
    refine ⟨⟨fun hkept src' hs' _ => ?_, fun h => h src hs hl⟩, hkeys⟩
    rw [hs] at hs'
    cases hs'
    exact hkept

end Wiring

/-! ### All credentials, there and back -/

structure Wireable where
  cred : Credential
  key : Str
  kept : Str → Str
  lawful : cred.Lawful key kept

section Runs

variable {host : Host} {ws : List Wireable} {env text : Str} {dir dir' : Dropins} {outcomes : List (Str × WiringOutcome)}

def Apart (ws : List Wireable) : Prop := ws.Pairwise fun v w => v.key ≠ w.key ∧ v.cred.file ≠ w.cred.file

lemma wireAll_wired (ha : Apart ws) (hd : ∀ w ∈ ws, Dropins.lookup dir w.cred.file = none)
    (h : wireAll host (ws.map Wireable.cred) env dir = .ok (text, outcomes, dir')) :
    (∀ w ∈ ws, Wired w.cred env text dir') ∧ (∀ k, (∀ w ∈ ws, k ≠ w.key) → lookupEnv text k = lookupEnv env k) ∧
      ∀ file, (∀ w ∈ ws, file ≠ w.cred.file) → Dropins.lookup dir' file = Dropins.lookup dir file := by
  induction ws generalizing env dir outcomes with
  | nil =>
    cases h
    exact ⟨fun w hw => absurd hw not_mem_nil, fun _ _ => rfl, fun _ _ => rfl⟩
  | cons w ws ih =>
    obtain ⟨hapart, ha⟩ := pairwise_cons.1 ha
    obtain ⟨⟨t, outcome, d⟩, hstep, h⟩ := bind_eq_ok.1 h
    obtain ⟨⟨t', os, d'⟩, hrest, he⟩ := map_eq_ok.1 h
    cases he
    obtain ⟨hw, hkeys, hfiles⟩ := wireCredential_wired w.lawful (hd w mem_cons_self) hstep
    have hdrop : ∀ v ∈ ws, Dropins.lookup d v.cred.file = none := fun v hv =>
      (hfiles _ (hapart v hv).2.symm).trans (hd v (mem_cons_of_mem w hv))
    obtain ⟨hws, hkeys', hfiles'⟩ := ih ha hdrop hrest
    refine ⟨fun v hv => ?_, fun k hk => ?_, fun file hf => ?_⟩
    · rcases mem_cons.1 hv with rfl | hv
      · exact hw.frame v.lawful rfl (hkeys' _ fun x hx => (hapart x hx).1) (hfiles' _ fun x hx => (hapart x hx).2)
      · exact (hws v hv).frame v.lawful (hkeys _ (hapart v hv).1.symm).symm rfl rfl
    · rw [hkeys' k fun v hv => hk v (mem_cons_of_mem w hv), hkeys k (hk w mem_cons_self)]
    · rw [hfiles' file fun v hv => hf v (mem_cons_of_mem w hv), hfiles file (hf w mem_cons_self)]

lemma restoreAll_cons {c : Credential} {cs : List Credential} :
    (restoreAll dir (c :: cs) text).1 = (restoreAll dir cs ((restored c dir text).getD text)).1 := by
  rw [restoreAll]
  cases restored c dir text <;> rfl

lemma restoreAll_wired (ha : Apart ws) (hw : ∀ w ∈ ws, Wired w.cred env text dir) :
    (∀ w ∈ ws, w.cred.extract (restoreAll dir (ws.map Wireable.cred) text).1 = w.cred.extract env ↔
      w.cred.Carries w.kept env) ∧
      ∀ k, (∀ w ∈ ws, k ≠ w.key) → lookupEnv (restoreAll dir (ws.map Wireable.cred) text).1 k = lookupEnv text k := by
  induction ws generalizing text with
  | nil => exact ⟨fun w hw => absurd hw not_mem_nil, fun _ _ => rfl⟩
  | cons w ws ih =>
    obtain ⟨hapart, ha⟩ := pairwise_cons.1 ha
    obtain ⟨hvalue, hkeys⟩ := restored_wired w.lawful (hw w mem_cons_self)
    rw [map_cons, restoreAll_cons]
    have hlater : ∀ v ∈ ws, Wired v.cred env ((restored w.cred dir text).getD text) dir := fun v hv =>
      (hw v (mem_cons_of_mem w hv)).frame v.lawful rfl (hkeys _ (hapart v hv).1.symm) rfl
    obtain ⟨hvalues, hkeys'⟩ := ih ha hlater
    refine ⟨fun v hv => ?_, fun k hk => ?_⟩
    · rcases mem_cons.1 hv with rfl | hv
      · rw [v.lawful.congr (hkeys' _ fun x hx => (hapart x hx).1), hvalue]
      · exact hvalues v hv
    · rw [hkeys' k fun v hv => hk v (mem_cons_of_mem w hv), hkeys k (hk w mem_cons_self)]

section

variable (hdeny : ∀ call, host.deny call = none)
include hdeny

lemma Host.attempt_ok (call : FsCall) (cmd verb : String) (path : Str) :
    host.attempt call cmd verb path = .ok () := by
  unfold attempt
  rw [hdeny call]

lemma wireAll_returns (ws : List Wireable) (env : Str) (dir : Dropins) :
    ∃ r, wireAll host (ws.map Wireable.cred) env dir = .ok r := by
  induction ws generalizing env dir with
  | nil => exact ⟨_, rfl⟩
  | cons w ws ih =>
    have hstep : ∃ r, wireCredential host w.cred env dir = .ok r := by
      unfold wireCredential
      split
      · exact ⟨_, rfl⟩
      · next value hv =>
        obtain ⟨t', hset, -⟩ := w.lawful.set hv (notMem_runtimePath w.lawful.name.1)
        split
        · rw [Host.attempt_ok hdeny]
          split_ifs <;> exact ⟨_, rfl⟩
        · exact ⟨_, rfl⟩
        · exact ⟨_, rfl⟩
        · rw [Host.attempt_ok hdeny, hset, writeIfChanged, Host.attempt_ok hdeny]
          split_ifs <;> exact ⟨_, rfl⟩
        · exact ⟨_, rfl⟩
    obtain ⟨r, hr⟩ := hstep
    obtain ⟨s, hs⟩ := ih r.1 r.2.2
    rw [map_cons, wireAll, hr, Except.bind, hs]
    exact ⟨_, rfl⟩

lemma removeAll_returns (cs : List Credential) (dir : Dropins) : ∃ r, removeAll host cs dir = .ok r := by
  induction cs generalizing dir with
  | nil => exact ⟨_, rfl⟩
  | cons c cs ih =>
    rw [removeAll, Host.attempt_ok hdeny]
    split_ifs
    · exact ih _
    · exact ih _

end

end Runs

/-! ### The env file, there and back -/

section Reversible

variable {U : UrlCrate} {host : Host} {env text : Str} {dir : Dropins}

def wireables (hU : U.Lawful) : List Wireable :=
  [⟨sftpKey U, STORAGE_URI, id, lawful_sftpKey hU⟩, ⟨gcsSaKey, GCS_KEY, _, lawful_gcsSaKey⟩]

lemma apart_wireables (hU : U.Lawful) : Apart (wireables hU) := by
  have hkeys : STORAGE_URI ≠ GCS_KEY := by decide
  refine pairwise_pair.2 ⟨hkeys, ?_⟩
  show "sftp-key".toList ++ ".conf".toList ≠ "gcs-sa-key".toList ++ ".conf".toList
  decide

lemma unwireCredentialDropins_ok {r : Option Str × Dropins}
    (h : unwireCredentialDropins U host (some text) dir = .ok r) :
    r.1 = some (restoreAll dir (CREDENTIALS U) text).1 := by
  obtain ⟨-, -, h⟩ := bind_eq_ok.1 h
  obtain ⟨d, -, rfl⟩ := map_eq_ok.1 h
  rfl

lemma unwireCredentialDropins_returns (hdeny : ∀ call, host.deny call = none) (env : Option Str) (dir : Dropins) :
    ∃ r, unwireCredentialDropins U host env dir = .ok r := by
  obtain ⟨d, hd⟩ := removeAll_returns hdeny (CREDENTIALS U) dir
  have hwrite : writeEnvAtomic host "uninstall-service" = .ok () := by
    unfold writeEnvAtomic
    rw [Host.attempt_ok hdeny, Host.attempt_ok hdeny, Host.attempt_ok hdeny]
    rfl
  simp only [unwireCredentialDropins, hwrite, hd, ite_self]
  exact ⟨_, rfl⟩

/-- The other path comes back if it does not end in a blank: a carriage return is one, and there is no line feed. -/
lemma gcs_carries : gcsSaKey.Carries (fun v => unquote (trimEnd v)) env ↔
    ∀ v, gcsExtract env = some (some v) → classifyCredentialSource (some v) = .absoluteLocal v → trimEnd v = v := by
  refine forall_congr' fun v => forall₂_congr fun hv hl => ?_
  have htrim : trimEnd (readBack v) = trimEnd v := by
    rw [readBack, firstLine_eq_self (notMem_of_lookupEnv (Option.some.inj hv))]
    rcases stripLast_cases '\r' v with h | h
    · rw [h]
    · conv_rhs => rw [h, trimEnd_concat (by decide)]
  have hunquote : unquote (trimEnd v) = trimEnd v := by
    obtain ⟨w, rfl⟩ := head?_eq_some_iff.1 (classify_eq_local hl).2
    refine unquote_of_head?_ne ?_
    rw [show '/' :: w = [] ++ '/' :: w from rfl, trimEnd_append (by decide)]
    show some '/' ≠ some '"'
    decide
  show unquote (trimEnd (readBack v)) = v ↔ _
  rw [htrim, hunquote]

/-- **What the wiring does to the credentials.**  Whenever both ways return, the key in the URI is as before if and only
if, as a local path, it has no line feed and does not end in a carriage return; the other path if and only if, as a
local path, it does not end in a blank; and the other keys are as before.  **An assignment** is read back if and only
if it is what the reader makes of it, keeps the other keys, and does nothing the second time if and only if no other
line ends in a carriage return. -/
theorem env_wiring_reversible_iff (U : UrlCrate) (hU : U.Lawful) (host : Host) :
    (∀ env,
      (∀ text outcomes dir after dir', wireCredentialDropins U host env none = .ok (text, outcomes, dir) →
        unwireCredentialDropins U host (some text) dir = .ok (after, dir') →
        ∃ env', after = some env' ∧
          (sftpExtract U env' = sftpExtract U env ↔ ∀ key, sftpExtract U env = some (some key) →
            classifyCredentialSource (some key) = .absoluteLocal key → '\n' ∉ key ∧ ¬ ['\r'] <:+ key) ∧
          (gcsExtract env' = gcsExtract env ↔ ∀ v, gcsExtract env = some (some v) →
            classifyCredentialSource (some v) = .absoluteLocal v → trimEnd v = v) ∧
          ∀ k, k ≠ STORAGE_URI → k ≠ GCS_KEY → lookupEnv env' k = lookupEnv env k) ∧
      ((∀ call, host.deny call = none) → ∃ text outcomes dir r,
        wireCredentialDropins U host env none = .ok (text, outcomes, dir) ∧
        unwireCredentialDropins U host (some text) dir = .ok r)) ∧
    ∀ text src src' key old k value, (key, old) ∈ parseEnvLines src → lookupEnv src' k = some value →
      (lookupEnv (setEnvAssignment text key value) key = some value ↔ unquote (trimEnd value) = value) ∧
      (∀ key', key' ≠ key → lookupEnv (setEnvAssignment text key value) key' = lookupEnv text key') ∧
      (setEnvAssignment (setEnvAssignment text key value) key value = setEnvAssignment text key value ↔
        ∀ raw ∈ (lines text).eraseP (assigns key), ¬ ['\r'] <:+ raw) := by
  refine ⟨fun env => ⟨fun text outcomes dir after dir' hwire hunwire => ?_, fun hdeny => ?_⟩,
    fun text src src' key old k value hkey hvalue => ?_⟩
  · have hnone : ∀ w ∈ wireables hU, Dropins.lookup none w.cred.file = none := fun _ _ => rfl
    obtain ⟨hwired, hkeys, -⟩ := wireAll_wired (apart_wireables hU) hnone hwire
    obtain ⟨hvalues, hkeys'⟩ := restoreAll_wired (apart_wireables hU) hwired
    obtain ⟨hsftp, hgcs⟩ := forall_mem_cons.1 hvalues
    refine ⟨_, unwireCredentialDropins_ok hunwire, hsftp.trans ?_, (forall_mem_singleton.1 hgcs).trans gcs_carries,
      fun k huri hgcs => ?_⟩
    · exact forall_congr' fun v => forall₂_congr fun _ _ => readBack_eq_self
    · have hother : ∀ w ∈ wireables hU, k ≠ w.key := forall_mem_cons.2 ⟨huri, forall_mem_singleton.2 hgcs⟩
      exact (hkeys' k hother).trans (hkeys k hother)
  · obtain ⟨⟨text, outcomes, dir⟩, hwire⟩ := wireAll_returns hdeny (wireables hU) env none
    obtain ⟨r, hr⟩ := unwireCredentialDropins_returns (U := U) hdeny (some text) dir
    exact ⟨text, outcomes, dir, r, hwire, hr⟩
  · have hk := isKey_of_mem_parseEnvLines hkey
    have hv := notMem_of_lookupEnv hvalue
    refine ⟨?_, fun key' hne => lookupEnv_setEnvAssignment_of_ne hk hv hne, setEnvAssignment_idem hk hv⟩
    rw [lookupEnv_setEnvAssignment hk hv, some_inj]

end Reversible

/-! ### URLs of one server -/

/-- A character is written as its number, in five digits. -/
def escape (s : Str) : Str := s.flatMap fun c => (digits 32 5 c.toNat).map Lock.digitChar

def unescape : Str → Str
  | a :: b :: c :: d :: e :: rest =>
    Char.ofNat (([a, b, c, d, e].mapM Lock.charDigit).elim 0 (ofDigits 32)) :: unescape rest
  | _ => []

def pairText (p : Str × Str) : Str := escape p.1 ++ '=' :: escape p.2

def readPair (s : Str) : Str × Str :=
  match splitOnce '=' (stripLast '&' s) with
  | some p => (unescape p.1, unescape p.2)
  | none => (unescape (stripLast '&' s), [])

def serverUrl : UrlCrate where
  Url := List (Str × Str)
  parse s := (s.dropPrefix? "sftp://u@h/d?".toList).map fun q => (splitInclusive '&' q).map readPair
  scheme _ := SFTP
  queryPairs ps := ps
  setPairs _ ps := ps
  text ps := "sftp://u@h/d?".toList ++ joined '&' (ps.map pairText)

section ServerUrl

variable {s rest : Str} {c : Char}

lemma unescape_escape : unescape (escape s) = s := by
  induction s with
  | nil => rfl
  | cons c s ih =>
    have hlt : c.toNat < 32 ^ 5 := (char_toNat_lt c).trans (by decide)
    have hdigits : ∀ d ∈ digits 32 5 c.toNat, d < 32 := digits_lt (by decide)
    have hread : ofDigits 32 (digits 32 5 c.toNat) = c.toNat := ofDigits_digits hlt
    have hlen : (digits 32 5 c.toNat).length = 5 := digits_length
    unfold escape at ih ⊢
    rw [flatMap_cons]
    generalize digits 32 5 c.toNat = ds at hdigits hread hlen
    rcases ds with _ | ⟨d₁, _ | ⟨d₂, _ | ⟨d₃, _ | ⟨d₄, _ | ⟨d₅, _ | ⟨d₆, ds⟩⟩⟩⟩⟩⟩ <;> cases hlen
    show Char.ofNat ((([d₁, d₂, d₃, d₄, d₅].map Lock.digitChar).mapM Lock.charDigit).elim 0 (ofDigits 32)) ::
      unescape (s.flatMap _) = c :: s
    rw [Lock.mapM_charDigit hdigits, elim_some, hread, Char.ofNat_toNat, ih]

lemma mem_escape (h : c ∈ escape s) : c ∈ Lock.ALPHABET := by
  obtain ⟨x, -, hc⟩ := mem_flatMap.1 h
  obtain ⟨d, hd, rfl⟩ := List.mem_map.1 hc
  have hdigit : ∀ d < 32, Lock.digitChar d ∈ Lock.ALPHABET := by decide
  exact hdigit d (digits_lt (by decide) d hd)

lemma notMem_escape (h : c ∉ Lock.ALPHABET) : c ∉ escape s := fun hc => h (mem_escape hc)

lemma readPair_pairText (p : Str × Str) : readPair (pairText p ++ ['&']) = p := by
  unfold readPair pairText
  rw [stripLast_concat, splitOnce_append (notMem_escape (by decide))]
  simp only [unescape_escape]

lemma parse_serverUrl (ps : List (Str × Str)) : serverUrl.parse (serverUrl.text ps) = some ps := by
  have hquery : (serverUrl.text ps).dropPrefix? "sftp://u@h/d?".toList = some (joined '&' (ps.map pairText)) :=
    dropPrefix?_eq_some_iff.2 ⟨_, rfl, beq_self_eq_true _⟩
  have hparts : ∀ q ∈ ps.map pairText, '&' ∉ q := by
    intro q hq
    obtain ⟨p, -, rfl⟩ := List.mem_map.1 hq
    unfold pairText
    rw [mem_append, mem_cons, not_or, not_or]
    exact ⟨notMem_escape (by decide), by decide, notMem_escape (by decide)⟩
  show Option.map _ _ = _
  rw [hquery, map_some, splitInclusive_joined hparts, List.map_map, List.map_map]
  refine congrArg some ?_
  conv_rhs => rw [← List.map_id ps]
  exact map_congr_left fun p _ => readPair_pairText p

lemma visible_serverUrl (ps : List (Str × Str)) : ∀ c ∈ serverUrl.text ps, isWhitespace c = false := by
  have hword : Lock.ALPHABET.all (fun c => isWhitespace c = false) = true := by decide
  have hbase : "sftp://u@h/d?".toList.all (fun c => isWhitespace c = false) = true := by decide
  have hquery : ∀ c ∈ joined '&' (ps.map pairText), isWhitespace c = false := by
    intro c hc
    obtain ⟨q, hq, hc⟩ := mem_flatMap.1 hc
    obtain ⟨p, -, rfl⟩ := List.mem_map.1 hq
    unfold pairText at hc
    simp only [mem_append, mem_cons, not_mem_nil, or_false] at hc
    rcases hc with (hc | rfl | hc) | rfl
    · exact of_decide_eq_true (List.all_eq_true.1 hword c (mem_escape hc))
    · decide
    · exact of_decide_eq_true (List.all_eq_true.1 hword c (mem_escape hc))
    · decide
  intro c hc
  rcases mem_append.1 hc with hc | hc
  · exact of_decide_eq_true (List.all_eq_true.1 hbase c hc)
  · exact hquery c hc

lemma lawful_serverUrl : serverUrl.Lawful where
  parse_text _ _ := parse_serverUrl _
  queryPairs_setPairs _ _ := rfl
  scheme_setPairs _ _ := rfl
  oneLine := by
    intro s u ps _ _ hn
    exact absurd (visible_serverUrl ps _ hn) (by decide)
  plain := by
    intro s u ps _ _
    have htrim : trimEnd (serverUrl.text ps) = serverUrl.text ps := rdropWhile_eq_self_iff.2 fun hne => by
        rw [visible_serverUrl ps _ (getLast_mem hne)]
        decide
    show unquote (trimEnd (serverUrl.text ps)) = serverUrl.text ps
    rw [htrim]
    refine unquote_of_head?_ne ?_
    show some 's' ≠ some '"'
    decide

end ServerUrl

def servingHost : Host := ⟨"/etc/env".toList, "/etc/env.tmp".toList, "/etc/bepository.service.d".toList, fun _ => none⟩

def bothSet : Str := STORAGE_URI ++ '=' :: serverUrl.text [(KEY_PARAM, "/etc/key".toList)] ++
  '\n' :: GCS_KEY ++ "=/etc/sa.json\n".toList

theorem env_wiring_reversible_bothSet :
    (∃ text outcomes dir env' dir',
      wireCredentialDropins serverUrl servingHost bothSet none = .ok (text, outcomes, dir) ∧
      unwireCredentialDropins serverUrl servingHost (some text) dir = .ok (some env', dir') ∧
      sftpExtract serverUrl env' = some (some "/etc/key".toList) ∧
      gcsExtract env' = some (some "/etc/sa.json".toList)) ∧
    lookupEnv (setEnvAssignment [] GCS_KEY "/etc/sa.json".toList) GCS_KEY = some "/etc/sa.json".toList := by
  obtain ⟨hwiring, hset⟩ := env_wiring_reversible_iff serverUrl lawful_serverUrl servingHost
  have hsftp : sftpExtract serverUrl bothSet = some (some "/etc/key".toList) := by decide
  have hgcs : gcsExtract bothSet = some (some "/etc/sa.json".toList) := by decide
  have hplain : '\n' ∉ "/etc/key".toList ∧ ¬ ['\r'] <:+ "/etc/key".toList := by decide
  obtain ⟨hback, hreturns⟩ := hwiring bothSet
  obtain ⟨text, outcomes, dir, ⟨after, dir'⟩, hwire, hunwire⟩ := hreturns fun _ => rfl
  obtain ⟨env', rfl, hs, hg, -⟩ := hback text outcomes dir after dir' hwire hunwire
  have hs' := hs.2 fun key hkey _ => Option.some.inj (Option.some.inj (hsftp.symm.trans hkey)) ▸ hplain
  have hg' := hg.2 fun v hv _ => Option.some.inj (Option.some.inj (hgcs.symm.trans hv)) ▸ by decide
  refine ⟨⟨text, outcomes, dir, env', dir', hwire, hunwire, hs'.trans hsftp, hg'.trans hgcs⟩, ?_⟩
  have hmem : (GCS_KEY, "/etc/sa.json".toList) ∈ parseEnvLines bothSet := by decide
  exact (hset [] bothSet bothSet GCS_KEY _ GCS_KEY _ hmem (Option.some.inj hgcs)).1.2 (by decide)

/-- A blank that quotes protect is lost: `set_env_assignment` writes no quotes, and unwiring neither.  A line that
ends in two carriage returns loses one of them each time. -/
theorem env_wiring_loses_blanks :
    (lookupEnv "A=\"x \"\n".toList ['A'] = some ['x', ' '] ∧
      lookupEnv (setEnvAssignment "A=\"x \"\n".toList ['A'] ['x', ' ']) ['A'] = some ['x']) ∧
    (lookupEnv "B=1\r\r\nA=2\n".toList ['A'] = some ['2'] ∧
      setEnvAssignment (setEnvAssignment "B=1\r\r\nA=2\n".toList ['A'] ['2']) ['A'] ['2'] ≠
        setEnvAssignment "B=1\r\r\nA=2\n".toList ['A'] ['2']) ∧
    ∃ text outcomes dir env' dir', wireCredentialDropins serverUrl servingHost (GCS_KEY ++ "=\"/k \"\n".toList) none =
        .ok (text, outcomes, dir) ∧
      unwireCredentialDropins serverUrl servingHost (some text) dir = .ok (some env', dir') ∧
      gcsExtract (GCS_KEY ++ "=\"/k \"\n".toList) = some (some "/k ".toList) ∧
      gcsExtract env' = some (some "/k".toList) := by
  exact ⟨by decide, by decide, _, _, _, _, _, rfl, rfl, by decide, by decide⟩

end Bepository.Cli
