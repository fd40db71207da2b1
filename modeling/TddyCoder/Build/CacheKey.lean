/-
  TddyCoder.Build.CacheKey — the key under which the outcome of an action is kept
  (`packages/tddy-build/src/cache.rs`).

  The key is the digest of one text in which the fields of the action and the fingerprints
  of its files follow each other with delimiters between them. Only the command line is
  written so that it can be read back (as JSON); the other fields are written as they are,
  and a field that contains a delimiter can be read as two. The digest is a parameter that
  tells any two texts apart.

  Proved: `run_keys_separate_plain_works`, that have none in a field; else
  `one_variable_collides_with_two`.
-/

import TddyCoder.Build.Action
import TddyCoder.Text.Delimited

namespace TddyCoder.Build

open Text Table List Function

structure FileFingerprint where
  path : String
  size : Nat
  mtimeMs : Nat
  deriving DecidableEq

/-- SHA-256 in hexadecimal, taken to be injective, and the JSON text of a list of strings, which escapes control
    characters. -/
structure Hashing where
  sha256Hex : String → String
  json : List String → String
  sha256Hex_injective : Injective sha256Hex
  sha256Hex_digits : ∀ s, ∀ c ∈ (sha256Hex s).toList, c ∈ "0123456789abcdef".toList
  json_injective : Injective json
  json_escapes : ∀ l, '\x00' ∉ (json l).toList

def actionTypeStr (value : Int) : String :=
  if value = 1 then "command" else if value = 2 then "copy" else if value = 3 then "tool" else "unspecified"

def outputKindStr (value : Int) : String :=
  if value = 1 then "file" else if value = 2 then "directory" else "unspecified"

def envText (entry : String × String) : String := entry.1 ++ "=" ++ entry.2 ++ ";"

variable (fp : FileFingerprint)

def fingerprintText : String :=
  fp.path ++ ":" ++ toString fp.size ++ ":" ++ toString fp.mtimeMs ++ ";"

def outputText (out : OutputDecl) : String := out.path ++ ":" ++ outputKindStr out.kind ++ ";"

def sortedEnv (env : Assoc String String) : List (String × String) :=
  (env.entries.map fun e => (e.1, e.2)).insertionSort fun a b => a.1 ≤ b.1

def sortedInputs (fps : List FileFingerprint) : List FileFingerprint :=
  fps.insertionSort fun a b => a.path ≤ b.path

def sortedOutputs (outs : List OutputDecl) : List OutputDecl := outs.insertionSort fun a b => a.path ≤ b.path

def sortedTools (fps : List FileFingerprint) : List FileFingerprint :=
  fps.insertionSort fun a b =>
    a.path < b.path ∨ a.path = b.path ∧ (a.size < b.size ∨ a.size = b.size ∧ a.mtimeMs ≤ b.mtimeMs)

variable (h : Hashing) {c : Char} (action : BuildAction) (inputs : List FileFingerprint)

def keyText : String :=
  action.id ++ ("\x00type\x00" ++ (actionTypeStr action.type ++ ("\x00cmd\x00" ++ (h.json action.command ++
  ("\x00wd\x00" ++ (action.workingDir ++ ("\x00env\x00" ++ (String.join ((sortedEnv action.env).map envText) ++
  ("\x00inputs\x00" ++ (String.join ((sortedInputs inputs).map fingerprintText) ++
  ("|outputs|" ++ (String.join ((sortedOutputs action.outputs).map outputText) ++
  ("|tool_deps|" ++ String.join ((action.toolDepIds.insertionSort (· ≤ ·)).map (· ++ ";")))))))))))))))

def computeCacheKey : String :=
  "sha256:" ++ h.sha256Hex (keyText h action inputs)

def computeCacheKeyWithTools (tools : List FileFingerprint) : String :=
  let key := computeCacheKey h action inputs
  if tools.isEmpty then key
  else "sha256:" ++ h.sha256Hex (key ++ ("|tools|" ++ String.join ((sortedTools tools).map fingerprintText)))

def computeRunCacheKey (tools : List FileFingerprint) (hermetic : Bool) : String :=
  let key := computeCacheKeyWithTools h action inputs tools
  if !hermetic then key else "sha256:" ++ h.sha256Hex (key ++ "|hermetic|")

/-! ## Works and their fields -/

structure Work where
  action : BuildAction
  inputs : List FileFingerprint
  tools : List FileFingerprint
  hermetic : Bool

def Work.key (w : Work) : String := computeRunCacheKey h w.action w.inputs w.tools w.hermetic

/-- The works do not differ in anything the key is to cover. -/
structure Work.Agree (w w' : Work) : Prop where
  id : w.action.id = w'.action.id
  type : w.action.type = w'.action.type
  command : w.action.command = w'.action.command
  workingDir : w.action.workingDir = w'.action.workingDir
  env : ∀ name, w.action.env.lookup name = w'.action.env.lookup name
  hermetic : w.hermetic = w'.hermetic
  inputs : w.inputs.Perm w'.inputs
  tools : w.tools.Perm w'.tools
  outputs : w.action.outputs.Perm w'.action.outputs
  toolDepIds : w.action.toolDepIds.Perm w'.action.toolDepIds

theorem Work.Agree.refl (w : Work) : w.Agree w :=
  ⟨rfl, rfl, rfl, rfl, fun _ => rfl, rfl, .refl _, .refl _, .refl _, .refl _⟩

/-- No field contains the mark that ends it, or a mark that ends a part of the text it stands in; and the numbers for type
    and kind are among those that have a name. -/
structure Work.Plain (w : Work) : Prop where
  id : '\x00' ∉ w.action.id.toList
  type : 0 ≤ w.action.type ∧ w.action.type ≤ 3
  workingDir : '\x00' ∉ w.action.workingDir.toList
  envName : ∀ e ∈ w.action.env.entries, '\x00' ∉ e.1.toList ∧ '=' ∉ e.1.toList
  envValue : ∀ e ∈ w.action.env.entries, '\x00' ∉ e.2.toList ∧ ';' ∉ e.2.toList
  inputs : ∀ fp ∈ w.inputs, ';' ∉ fp.path.toList ∧ '|' ∉ fp.path.toList
  tools : ∀ fp ∈ w.tools, ';' ∉ fp.path.toList ∧ '\x00' ∉ fp.path.toList
  outputs : ∀ out ∈ w.action.outputs, ';' ∉ out.path.toList ∧ '|' ∉ out.path.toList ∧ 0 ≤ out.kind ∧ out.kind ≤ 2
  toolDepIds : ∀ id ∈ w.action.toolDepIds, ';' ∉ id.toList

/-! ## Reading the lists back -/

theorem actionTypeStr_injective {a b : Int} (ha : 0 ≤ a ∧ a ≤ 3) (hb : 0 ≤ b ∧ b ≤ 3)
    (heq : actionTypeStr a = actionTypeStr b) : a = b := by
  have ha' : a = 0 ∨ a = 1 ∨ a = 2 ∨ a = 3 := by omega
  have hb' : b = 0 ∨ b = 1 ∨ b = 2 ∨ b = 3 := by omega
  rcases ha' with rfl | rfl | rfl | rfl <;> rcases hb' with rfl | rfl | rfl | rfl <;>
    first | rfl | exact absurd heq (by decide)

theorem outputKindStr_injective {a b : Int} (ha : 0 ≤ a ∧ a ≤ 2) (hb : 0 ≤ b ∧ b ≤ 2)
    (heq : outputKindStr a = outputKindStr b) : a = b := by
  have ha' : a = 0 ∨ a = 1 ∨ a = 2 := by omega
  have hb' : b = 0 ∨ b = 1 ∨ b = 2 := by omega
  rcases ha' with rfl | rfl | rfl <;> rcases hb' with rfl | rfl | rfl <;>
    first | rfl | exact absurd heq (by decide)

theorem not_mem_letters (hc : c.isAlpha = false) {s : String} (hs : s.toList.all Char.isAlpha = true) :
    c ∉ s.toList := by
  intro hmem
  rw [all_eq_true.mp hs c hmem] at hc
  cases hc

theorem not_mem_actionTypeStr (hc : c.isAlpha = false) (value : Int) : c ∉ (actionTypeStr value).toList := by
  refine not_mem_letters hc ?_
  unfold actionTypeStr
  split_ifs <;> decide

theorem not_mem_outputKindStr (hc : c.isAlpha = false) (value : Int) : c ∉ (outputKindStr value).toList := by
  refine not_mem_letters hc ?_
  unfold outputKindStr
  split_ifs <;> decide

theorem envText_selfDelimiting :
    SelfDelimiting (fun e : String × String => '=' ∉ e.1.toList ∧ ';' ∉ e.2.toList) fun e => (envText e).toList := by
  rintro ⟨name, value⟩ ⟨name', value'⟩ rest rest' ⟨hname, hvalue⟩ ⟨hname', hvalue'⟩ heq
  have hchars : name.toList ++ '=' :: (value.toList ++ ';' :: rest) =
      name'.toList ++ '=' :: (value'.toList ++ ';' :: rest') := by
    simpa [envText] using heq
  obtain ⟨hsame, hafter⟩ := append_cons_inj_first hname hname' hchars
  obtain ⟨hsame', rfl⟩ := append_cons_inj_first hvalue hvalue' hafter
  exact ⟨Prod.ext (String.toList_inj.mp hsame) (String.toList_inj.mp hsame'), rfl⟩

def fingerprintBody : List Char :=
  fp.path.toList ++ ':' :: (Nat.toDigits 10 fp.size ++ ':' :: Nat.toDigits 10 fp.mtimeMs)

theorem toList_fingerprintText : (fingerprintText fp).toList = fingerprintBody fp ++ [';'] := by
  simp [fingerprintText, fingerprintBody]

theorem not_mem_fingerprintBody (hdigit : c.isDigit = false) (hcolon : c ≠ ':') {fp : FileFingerprint}
    (hpath : c ∉ fp.path.toList) : c ∉ fingerprintBody fp := by
  simp [fingerprintBody, hpath, hcolon, not_mem_digits hdigit]

theorem fingerprintBody_injective {fp fp' : FileFingerprint} (heq : fingerprintBody fp = fingerprintBody fp') :
    fp = fp' := by
  have hcolon : ∀ n, ':' ∉ Nat.toDigits 10 n := not_mem_digits rfl
  have hlast : (fp.path.toList ++ ':' :: Nat.toDigits 10 fp.size) ++ ':' :: Nat.toDigits 10 fp.mtimeMs =
      (fp'.path.toList ++ ':' :: Nat.toDigits 10 fp'.size) ++ ':' :: Nat.toDigits 10 fp'.mtimeMs := by
    simpa [fingerprintBody] using heq
  obtain ⟨hbefore, hmtime⟩ := append_cons_inj_last (hcolon _) (hcolon _) hlast
  obtain ⟨hpath, hsize⟩ := append_cons_inj_last (hcolon _) (hcolon _) hbefore
  cases fp
  cases fp'
  simp only [FileFingerprint.mk.injEq]
  exact ⟨String.toList_inj.mp hpath, digits_injective hsize, digits_injective hmtime⟩

theorem fingerprintText_selfDelimiting :
    SelfDelimiting (fun fp : FileFingerprint => ';' ∉ fp.path.toList) fun fp => (fingerprintText fp).toList := by
  intro fp fp' rest rest' hfp hfp' heq
  simp only [toList_fingerprintText, append_assoc, singleton_append] at heq
  obtain ⟨hbody, rfl⟩ := append_cons_inj_first (not_mem_fingerprintBody rfl (by decide) hfp)
    (not_mem_fingerprintBody rfl (by decide) hfp') heq
  exact ⟨fingerprintBody_injective hbody, rfl⟩

theorem outputText_selfDelimiting :
    SelfDelimiting (fun out : OutputDecl => ';' ∉ out.path.toList ∧ 0 ≤ out.kind ∧ out.kind ≤ 2)
      fun out => (outputText out).toList := by
  rintro ⟨path, kind⟩ ⟨path', kind'⟩ rest rest' ⟨hpath, hkind⟩ ⟨hpath', hkind'⟩ heq
  have hchars : (path.toList ++ ':' :: (outputKindStr kind).toList) ++ ';' :: rest =
      (path'.toList ++ ':' :: (outputKindStr kind').toList) ++ ';' :: rest' := by
    simpa [outputText] using heq
  have hfree : ∀ (path : String) (kind : Int), ';' ∉ path.toList →
      ';' ∉ path.toList ++ ':' :: (outputKindStr kind).toList := by
    intro path kind hpath
    have hname : ';' ∉ (outputKindStr kind).toList := not_mem_outputKindStr rfl kind
    simp [hpath, hname]
  obtain ⟨hbody, rfl⟩ := append_cons_inj_first (hfree path kind hpath) (hfree path' kind' hpath') hchars
  obtain ⟨hsame, hname⟩ := append_cons_inj_last (not_mem_outputKindStr rfl _) (not_mem_outputKindStr rfl _) hbody
  obtain rfl := String.toList_inj.mp hsame
  obtain rfl := outputKindStr_injective hkind hkind' (String.toList_inj.mp hname)
  exact ⟨rfl, rfl⟩

theorem toolDepText_selfDelimiting :
    SelfDelimiting (fun id : String => ';' ∉ id.toList) fun id => (id ++ ";").toList := by
  intro id id' rest rest' hid hid' heq
  have hchars : id.toList ++ ';' :: rest = id'.toList ++ ';' :: rest' := by
    simpa using heq
  obtain ⟨hsame, rfl⟩ := append_cons_inj_first hid hid' hchars
  exact ⟨String.toList_inj.mp hsame, rfl⟩

/-! ## Reading the text back -/

theorem perm_of_sorted_eq {β : Type} {r : β → β → Prop} [DecidableRel r] {l l' : List β}
    (heq : l.insertionSort r = l'.insertionSort r) : l.Perm l' :=
  (perm_insertionSort r l).symm.trans (heq ▸ perm_insertionSort r l')

theorem lookup_of_sortedEnv {env env' : Assoc String String} (heq : sortedEnv env = sortedEnv env') (name : String) :
    env.lookup name = env'.lookup name := by
  have hperm := (perm_of_sorted_eq heq).map fun e : String × String => (⟨e.1, e.2⟩ : Sigma fun _ : String => String)
  simp only [map_map, comp_def, map_id'] at hperm
  exact AList.perm_lookup hperm

theorem mem_sortedEnv {env : Assoc String String} {e : String × String} (he : e ∈ sortedEnv env) :
    (⟨e.1, e.2⟩ : Sigma fun _ : String => String) ∈ env.entries := by
  obtain ⟨entry, hentry, rfl⟩ := mem_map.mp ((perm_insertionSort _ _).mem_iff.mp he)
  exact hentry

namespace Work

variable {h} {w w' : Work}

section

variable (hw : w.Plain)
include hw

theorem Plain.env : ∀ e ∈ sortedEnv w.action.env,
    ('\x00' ∉ e.1.toList ∧ '\x00' ∉ e.2.toList) ∧ '=' ∉ e.1.toList ∧ ';' ∉ e.2.toList := by
  intro e he
  obtain ⟨hname, hname'⟩ := hw.envName _ (mem_sortedEnv he)
  obtain ⟨hvalue, hvalue'⟩ := hw.envValue _ (mem_sortedEnv he)
  exact ⟨⟨hname, hvalue⟩, hname', hvalue'⟩

theorem Plain.not_mem_env : '\x00' ∉ (String.join ((sortedEnv w.action.env).map envText)).toList := by
  refine not_mem_join fun e he => ?_
  obtain ⟨⟨hname, hvalue⟩, -⟩ := hw.env e he
  simp [envText, hname, hvalue]

theorem Plain.inputs_sorted : ∀ fp ∈ sortedInputs w.inputs, ';' ∉ fp.path.toList ∧ '|' ∉ fp.path.toList :=
  fun fp hfp => hw.inputs fp ((perm_insertionSort _ _).mem_iff.mp hfp)

theorem Plain.not_mem_inputs : '|' ∉ (String.join ((sortedInputs w.inputs).map fingerprintText)).toList := by
  refine not_mem_join fun fp hfp => ?_
  rw [toList_fingerprintText, mem_append, not_or]
  exact ⟨not_mem_fingerprintBody rfl (by decide) (hw.inputs_sorted fp hfp).2, by decide⟩

theorem Plain.outputs_sorted : ∀ out ∈ sortedOutputs w.action.outputs,
    '|' ∉ out.path.toList ∧ ';' ∉ out.path.toList ∧ 0 ≤ out.kind ∧ out.kind ≤ 2 := by
  intro out hout
  obtain ⟨hmark, hbar, hkind⟩ := hw.outputs out ((perm_insertionSort _ _).mem_iff.mp hout)
  exact ⟨hbar, hmark, hkind⟩

theorem Plain.not_mem_outputs : '|' ∉ (String.join ((sortedOutputs w.action.outputs).map outputText)).toList := by
  refine not_mem_join fun out hout => ?_
  have hname : '|' ∉ (outputKindStr out.kind).toList := not_mem_outputKindStr rfl out.kind
  simp [outputText, (hw.outputs_sorted out hout).1, hname]

theorem Plain.tools_sorted : ∀ fp ∈ sortedTools w.tools, ';' ∉ fp.path.toList ∧ '\x00' ∉ fp.path.toList :=
  fun fp hfp => hw.tools fp ((perm_insertionSort _ _).mem_iff.mp hfp)

end

theorem fingerprintText_ne_nil : (fingerprintText fp).toList ≠ [] := by
  rw [toList_fingerprintText]
  exact append_ne_nil_of_right_ne_nil _ (cons_ne_nil _ _)

/-- The text is cut at one delimiter after another; what stands between two of them contains the first mark of neither. -/
theorem agree_of_keyText (hw : w.Plain) (hw' : w'.Plain)
    (heq : keyText h w.action w.inputs = keyText h w'.action w'.inputs) (htools : w.tools.Perm w'.tools)
    (hhermetic : w.hermetic = w'.hermetic) : w.Agree w' := by
  obtain ⟨hid, heq⟩ := cut_delimiter rfl hw.id hw'.id heq
  obtain ⟨htype, heq⟩ := cut_delimiter rfl (not_mem_actionTypeStr rfl _) (not_mem_actionTypeStr rfl _) heq
  obtain ⟨hcommand, heq⟩ := cut_delimiter rfl (h.json_escapes _) (h.json_escapes _) heq
  obtain ⟨hdir, heq⟩ := cut_delimiter rfl hw.workingDir hw'.workingDir heq
  obtain ⟨henv, heq⟩ := cut_delimiter rfl hw.not_mem_env hw'.not_mem_env heq
  obtain ⟨hinputs, heq⟩ := cut_delimiter rfl hw.not_mem_inputs hw'.not_mem_inputs heq
  obtain ⟨houtputs, htoolDeps⟩ := cut_delimiter rfl hw.not_mem_outputs hw'.not_mem_outputs heq
  have henv' : sortedEnv w.action.env = sortedEnv w'.action.env :=
    envText_selfDelimiting.join_injective (fun e => by simp [envText]) (fun e he => (hw.env e he).2)
      (fun e he => (hw'.env e he).2) henv
  have hinputs' : sortedInputs w.inputs = sortedInputs w'.inputs :=
    fingerprintText_selfDelimiting.join_injective fingerprintText_ne_nil (fun fp hfp => (hw.inputs_sorted fp hfp).1)
      (fun fp hfp => (hw'.inputs_sorted fp hfp).1) hinputs
  have houtputs' : sortedOutputs w.action.outputs = sortedOutputs w'.action.outputs :=
    outputText_selfDelimiting.join_injective (fun out => by simp [outputText])
      (fun out hout => (hw.outputs_sorted out hout).2) (fun out hout => (hw'.outputs_sorted out hout).2) houtputs
  have htoolDeps' : w.action.toolDepIds.insertionSort (· ≤ ·) = w'.action.toolDepIds.insertionSort (· ≤ ·) :=
    toolDepText_selfDelimiting.join_injective (fun id => by simp)
      (fun id hmem => hw.toolDepIds id ((perm_insertionSort _ _).mem_iff.mp hmem))
      (fun id hmem => hw'.toolDepIds id ((perm_insertionSort _ _).mem_iff.mp hmem)) htoolDeps
  exact ⟨hid, actionTypeStr_injective hw.type hw'.type htype, h.json_injective hcommand, hdir,
    lookup_of_sortedEnv henv', hhermetic, perm_of_sorted_eq hinputs', htools, perm_of_sorted_eq houtputs',
    perm_of_sorted_eq htoolDeps'⟩

/-! ## The three digests -/

theorem not_mem_key (hc : c ∉ "sha256:0123456789abcdef".toList) (s : String) :
    c ∉ ("sha256:" ++ h.sha256Hex s).toList := by
  intro hmem
  rw [String.toList_append, mem_append] at hmem
  have hsplit : "sha256:0123456789abcdef".toList = "sha256:".toList ++ "0123456789abcdef".toList := by decide
  rw [hsplit, mem_append, not_or] at hc
  exact hmem.elim hc.1 fun hdigit => hc.2 (h.sha256Hex_digits s c hdigit)

theorem digest_injective {s s' : String} (heq : "sha256:" ++ h.sha256Hex s = "sha256:" ++ h.sha256Hex s') : s = s' := by
  have hchars := congrArg String.toList heq
  rw [String.toList_append, String.toList_append] at hchars
  exact h.sha256Hex_injective (String.toList_inj.mp (append_cancel_left hchars))

theorem nul_mem_keyText (action : BuildAction) (inputs : List FileFingerprint) :
    '\x00' ∈ (keyText h action inputs).toList := by
  simp [keyText]

def toolsText (h : Hashing) (w : Work) : String :=
  if w.tools.isEmpty then keyText h w.action w.inputs
  else computeCacheKey h w.action w.inputs ++ ("|tools|" ++ String.join ((sortedTools w.tools).map fingerprintText))

def runText (h : Hashing) (w : Work) : String :=
  if w.hermetic then "sha256:" ++ h.sha256Hex (toolsText h w) ++ "|hermetic|" else toolsText h w

theorem key_eq (w : Work) : w.key h = "sha256:" ++ h.sha256Hex (runText h w) := by
  unfold key computeRunCacheKey runText computeCacheKeyWithTools toolsText
  cases w.hermetic <;> cases w.tools.isEmpty <;> rfl

theorem Plain.keyText_ne (hw' : w'.Plain) {key : String} (hkey : '\x00' ∉ key.toList) :
    keyText h w.action w.inputs ≠ key ++ ("|tools|" ++ String.join ((sortedTools w'.tools).map fingerprintText)) := by
  intro heq
  have hnul := nul_mem_keyText (h := h) w.action w.inputs
  rw [heq, String.toList_append, String.toList_append, mem_append, mem_append] at hnul
  rcases hnul with hnul | hnul | hnul
  · exact hkey hnul
  · exact absurd hnul (by decide)
  · refine not_mem_join (fun fp hfp => ?_) hnul
    rw [toList_fingerprintText, mem_append, not_or]
    exact ⟨not_mem_fingerprintBody rfl (by decide) (hw'.tools_sorted fp hfp).2, by decide⟩

theorem toolsText_injective (hw : w.Plain) (hw' : w'.Plain) (heq : toolsText h w = toolsText h w') :
    w.tools.Perm w'.tools ∧ keyText h w.action w.inputs = keyText h w'.action w'.inputs := by
  unfold toolsText at heq
  split at heq
  · next hempty =>
    split at heq
    · next hempty' =>
      rw [isEmpty_iff.mp hempty, isEmpty_iff.mp hempty']
      exact ⟨.refl _, heq⟩
    · exact absurd heq (hw'.keyText_ne (not_mem_key (by decide) _))
  split at heq
  · exact absurd heq.symm (hw.keyText_ne (not_mem_key (by decide) _))
  obtain ⟨hkey, htools⟩ := cut_delimiter rfl (not_mem_key (by decide) _) (not_mem_key (by decide) _) heq
  have htools' : sortedTools w.tools = sortedTools w'.tools :=
    fingerprintText_selfDelimiting.join_injective fingerprintText_ne_nil (fun fp hfp => (hw.tools_sorted fp hfp).1)
      (fun fp hfp => (hw'.tools_sorted fp hfp).1) htools
  exact ⟨perm_of_sorted_eq htools', digest_injective hkey⟩

theorem hermetic_ne_toolsText (s : String) (w' : Work) :
    "sha256:" ++ h.sha256Hex s ++ "|hermetic|" ≠ toolsText h w' := by
  intro heq
  unfold toolsText at heq
  split at heq
  · have hnul := nul_mem_keyText (h := h) w'.action w'.inputs
    rw [← heq, String.toList_append, mem_append] at hnul
    exact hnul.elim (not_mem_key (by decide) s) (by decide)
  -- behind the key stands `|hermetic|` in the one and `|tools|` in the other
  have hcut : "sha256:" ++ h.sha256Hex s ++ ("|" ++ "hermetic|") = computeCacheKey h w'.action w'.inputs ++
      ("|" ++ ("tools|" ++ String.join ((sortedTools w'.tools).map fingerprintText))) := heq
  obtain ⟨-, hrest⟩ := cut_delimiter rfl (not_mem_key (by decide) _) (not_mem_key (by decide) _) hcut
  have hhead := congrArg (fun t : String => t.toList.head?) hrest
  simp at hhead

theorem runText_injective (heq : runText h w = runText h w') :
    w.hermetic = w'.hermetic ∧ toolsText h w = toolsText h w' := by
  unfold runText at heq
  cases hhermetic : w.hermetic <;> cases hhermetic' : w'.hermetic <;> rw [hhermetic, hhermetic'] at heq
  · exact ⟨rfl, heq⟩
  · exact absurd heq.symm (hermetic_ne_toolsText _ _)
  · exact absurd heq (hermetic_ne_toolsText _ _)
  refine ⟨rfl, digest_injective (h := h) ?_⟩
  have hchars := congrArg String.toList heq
  simp only [↓reduceIte, String.toList_append] at hchars
  have hsame := append_cancel_right hchars
  exact String.toList_inj.mp (by simpa using hsame)

/-! ## Instances -/

def escapeChar (c : Char) : List Char :=
  if c = '"' ∨ c = '\\' then ['\\', c]
  else if c.toNat < 32 then ['\\', 'u', '0', '0', Nat.digitChar (c.toNat / 16), Nat.digitChar (c.toNat % 16)]
  else [c]

def quoted (s : String) : List Char := '"' :: (s.toList.flatMap escapeChar ++ ['"'])

def jsonStrings : List String → List Char
  | [] => ['[', ']']
  | s :: l => '[' :: (quoted s ++ (l.flatMap (fun s => ',' :: quoted s) ++ [']']))

def unaryHex (s : String) : List Char := s.toList.flatMap fun c => List.replicate c.toNat '1' ++ ['0']

theorem escapeChar_cases (c : Char) : (c = '"' ∨ c = '\\') ∧ escapeChar c = ['\\', c] ∨
    c.toNat < 32 ∧
      escapeChar c = ['\\', 'u', '0', '0', Nat.digitChar (c.toNat / 16), Nat.digitChar (c.toNat % 16)] ∨
    c ≠ '"' ∧ c ≠ '\\' ∧ 32 ≤ c.toNat ∧ escapeChar c = [c] := by
  unfold escapeChar
  by_cases hmark : c = '"' ∨ c = '\\'
  · exact .inl ⟨hmark, if_pos hmark⟩
  by_cases hcontrol : c.toNat < 32
  · exact .inr (.inl ⟨hcontrol, by rw [if_neg hmark, if_pos hcontrol]⟩)
  · obtain ⟨hquote, hbackslash⟩ := not_or.mp hmark
    exact .inr (.inr ⟨hquote, hbackslash, by omega, by rw [if_neg hmark, if_neg hcontrol]⟩)

theorem escapeChar_selfDelimiting : SelfDelimiting (fun _ => True) escapeChar := by
  have hdigits : ∀ m < 32, ∀ n < 32, Nat.digitChar (m / 16) = Nat.digitChar (n / 16) →
      Nat.digitChar (m % 16) = Nat.digitChar (n % 16) → m = n := by decide
  intro x y rest rest' _ _ heq
  rcases escapeChar_cases x with ⟨hx, hesc⟩ | ⟨hx, hesc⟩ | ⟨hquote, hbackslash, -, hesc⟩ <;>
    rcases escapeChar_cases y with ⟨hy, hesc'⟩ | ⟨hy, hesc'⟩ | ⟨hquote', hbackslash', -, hesc'⟩ <;>
    rw [hesc, hesc'] at heq <;> simp only [cons_append, nil_append, cons.injEq] at heq
  · exact ⟨heq.2.1, heq.2.2⟩
  · rcases hx with rfl | rfl <;> exact absurd heq.2.1 (by decide)
  · exact absurd heq.1.symm hbackslash'
  · rcases hy with rfl | rfl <;> exact absurd heq.2.1 (by decide)
  · obtain ⟨-, -, -, -, hhigh, hlow, hrest⟩ := heq
    exact ⟨Char.toNat_inj.mp (hdigits _ hx _ hy hhigh hlow), hrest⟩
  · exact absurd heq.1.symm hbackslash'
  · exact absurd heq.1 hbackslash
  · exact absurd heq.1 hbackslash
  · exact heq

theorem quoted_selfDelimiting : SelfDelimiting (fun _ => True) quoted := by
  have hends : ∀ c, ∃ d text, escapeChar c = d :: text ∧ d ≠ '"' := by
    intro c
    rcases escapeChar_cases c with ⟨-, hesc⟩ | ⟨-, hesc⟩ | ⟨hquote, -, -, hesc⟩
    · exact ⟨_, _, hesc, by decide⟩
    · exact ⟨_, _, hesc, by decide⟩
    · exact ⟨_, _, hesc, hquote⟩
  intro s s' rest rest' _ _ heq
  obtain ⟨hsame, rfl⟩ := escapeChar_selfDelimiting.terminated hends s.toList s'.toList rest rest' (fun _ _ => trivial)
    (fun _ _ => trivial) (List.cons_eq_cons.mp heq).2
  exact ⟨String.toList_inj.mp hsame, rfl⟩

theorem jsonStrings_injective : Function.Injective jsonStrings := by
  have hitem : SelfDelimiting (fun _ => True) fun s => ',' :: quoted s := fun s s' rest rest' hs hs' heq =>
    quoted_selfDelimiting s s' rest rest' hs hs' (List.cons_eq_cons.mp heq).2
  have hitems : SelfDelimiting (fun l : List String => ∀ s ∈ l, True)
      fun l => l.flatMap (fun s => ',' :: quoted s) ++ [']'] :=
    hitem.terminated fun s => ⟨_, _, rfl, by decide⟩
  intro l l' heq
  cases l with
  | nil =>
    cases l' with
    | nil => rfl
    | cons s' l' => exact absurd heq (by simp [jsonStrings, quoted])
  | cons s l =>
    cases l' with
    | nil => exact absurd heq (by simp [jsonStrings, quoted])
    | cons s' l' =>
      obtain ⟨rfl, htail⟩ := quoted_selfDelimiting s s' _ _ trivial trivial (List.cons_eq_cons.mp heq).2
      rw [(hitems l l' [] [] (fun _ _ => trivial) (fun _ _ => trivial) (congrArg (· ++ []) htail)).1]

theorem nul_not_mem_jsonStrings (l : List String) : '\x00' ∉ jsonStrings l := by
  have hesc : ∀ c, '\x00' ∉ escapeChar c := by
    intro c
    rcases escapeChar_cases c with ⟨hmark, hesc⟩ | ⟨hcontrol, hesc⟩ | ⟨-, -, hbig, hesc⟩
    · rw [hesc]
      rcases hmark with rfl | rfl <;> decide
    · have hdigits : ∀ n < 32, '\x00' ∉ ['\\', 'u', '0', '0', Nat.digitChar (n / 16), Nat.digitChar (n % 16)] := by decide
      rw [hesc]
      exact hdigits _ hcontrol
    · rw [hesc, List.mem_singleton]
      rintro rfl
      exact absurd hbig (by decide)
  have hquoted : ∀ s, '\x00' ∉ quoted s := by
    intro s
    simp [quoted, hesc]
  cases l with
  | nil => decide
  | cons s l => simp [jsonStrings, hquoted]

theorem unaryHex_injective : Function.Injective unaryHex := by
  have hchar : SelfDelimiting (fun _ => True) fun c : Char => List.replicate c.toNat '1' ++ ['0'] := by
    intro c c' rest rest' _ _ heq
    simp only [List.append_assoc, List.singleton_append] at heq
    obtain ⟨hones, hrest⟩ := append_cons_inj_first (by simp) (by simp) heq
    exact ⟨Char.toNat_inj.mp (by simpa using congrArg List.length hones), hrest⟩
  intro s s' heq
  exact String.toList_inj.mp (hchar.flatMap_injective (fun c => by simp) (fun _ _ => trivial) (fun _ _ => trivial) heq)

def unaryHashing : Hashing where
  sha256Hex s := String.ofList (unaryHex s)
  json l := String.ofList (jsonStrings l)
  sha256Hex_injective _ _ heq := unaryHex_injective (String.ofList_injective heq)
  sha256Hex_digits s c hc := by
    obtain ⟨d, -, hd⟩ := List.mem_flatMap.mp (String.toList_ofList ▸ hc)
    simp only [List.mem_append, List.mem_replicate, List.mem_singleton] at hd
    rcases hd with ⟨-, rfl⟩ | rfl <;> decide
  json_injective _ _ heq := jsonStrings_injective (String.ofList_injective heq)
  json_escapes l := by
    rw [String.toList_ofList]
    exact nul_not_mem_jsonStrings l

theorem key_of_keyText (htext : keyText h w.action w.inputs = keyText h w'.action w'.inputs) (htools : w.tools = w'.tools)
    (hhermetic : w.hermetic = w'.hermetic) : w.key h = w'.key h := by
  rw [key_eq, key_eq]
  simp only [runText, toolsText, computeCacheKey, htext, htools, hhermetic]

def compileWith (env : Assoc String String) (toolDepIds : List String) (inputs : List FileFingerprint) : Work :=
  ⟨⟨"compile", 1, ["cc", "-o", "app"], env, [], [⟨"out/app", 1⟩], toolDepIds, "", false⟩, inputs, [], false⟩

/-! ## The theorem -/

theorem run_keys_separate_plain_works (h : Hashing) (w w' : Work) (hw : w.Plain) (hw' : w'.Plain)
    (hkey : w.key h = w'.key h) : w.Agree w' := by
  rw [key_eq, key_eq] at hkey
  obtain ⟨hhermetic, htools⟩ := runText_injective (digest_injective hkey)
  obtain ⟨hperm, htext⟩ := toolsText_injective hw hw' htools
  exact agree_of_keyText hw hw' htext hperm hhermetic

theorem the_order_of_tools_does_not_matter :
    (compileWith (AList.singleton "A" "1") ["tools:cc", "tools:ld"] [⟨"a.c", 10, 1⟩, ⟨"b.c", 20, 2⟩]).Agree
      (compileWith (AList.singleton "A" "1") ["tools:ld", "tools:cc"] [⟨"b.c", 20, 2⟩, ⟨"a.c", 10, 1⟩]) := by
  refine run_keys_separate_plain_works unaryHashing _ _ ?_ ?_ ?_
  · constructor <;> decide
  · constructor <;> decide
  · exact key_of_keyText (by decide) rfl rfl

/-- A value with a semicolon in it reads like two variables. -/
theorem one_variable_collides_with_two :
    (compileWith (AList.singleton "A" "1;B=2") [] []).key unaryHashing =
        (compileWith ((AList.singleton "B" "2").insert "A" "1") [] []).key unaryHashing ∧
      ¬ (compileWith (AList.singleton "A" "1;B=2") [] []).Agree
        (compileWith ((AList.singleton "B" "2").insert "A" "1") [] []) := by
  constructor
  · exact key_of_keyText (by decide) rfl rfl
  · intro hagree
    exact absurd (hagree.env "B") (by decide)

end Work

end TddyCoder.Build
