import MarkSdk.Opening.InStep
import MarkSdk.Opening.Secrets

/-!
No store is half encrypted.

Processes open a file with any providers and write to it in any order. The rows
are always ciphertext of one secret, which is that of every process whose calls
still go through: a process without a key that was there before the first key
finds the text index gone and cannot store. Facts have no index, so for them no
such process may be there (`facts_one_secret`).
-/

namespace MarkSdk

open Lib

/-! ### The texts of a run -/

/-- What a step does to the plain picture. -/
def OpenStep.texts (host : OpenHost) (step : OpenStep) (w : OpenWorld) (texts : TextMap) :
    TextMap :=
  match step with
  | .finish p fails lastRowid =>
      match w.processes p with
      | some ⟨store, some (call, seen)⟩ =>
          match host.call store lastRowid seen w.file call with
          | .error _ => texts
          | .ok _ => if fails then texts else call.texts seen texts
      | _ => texts
  | _ => texts

/-- The processes beside the plain picture of their file. -/
def OpenStep.both (host : OpenHost) (step : OpenStep) (s : OpenWorld × TextMap) :
    OpenWorld × TextMap :=
  (step.apply host s.1, step.texts host s.1 s.2)

/-- No key comes while a process without one has the file open. -/
def OpenStep.Alone (step : OpenStep) (s : OpenWorld × TextMap) : Prop :=
  match step with
  | .opens _ provider _ => provider.encrypting = true →
      ∀ q process, s.1.processes q = some process → process.store.provider.encrypting = true
  | _ => True

/-- What holds of a file, its texts and the processes that have it open. With
`alone`, no key has come to a file that was open without one. -/
inductive OneSecret (host : OpenHost) (used : EncryptionProvider → Prop) (alone : Prop)
    (file : StoreFile) (processes : Nat → Option OpenProcess) (texts : TextMap) : Prop
  | plain (hfile : file.Plain host.fernet texts)
      (hopen : ∀ p process, processes p = some process →
        process.store = .keyless ∧ file.info.encryptedAtRest ≠ none)
  | legacy (secret : EncryptionProvider) (hfile : file.Legacy host.fernet used texts secret)
      (hclosed : ∀ p, processes p = none)
  | owned (secret : EncryptionProvider) (hfile : file.Owned host.fernet used texts secret)
      (hopen : ∀ p process, processes p = some process → process.store.Has secret ∨
        process.store = .keyless ∧ file.fts = none ∧ ¬alone)
      (hfacts : alone → FactsMade host.fernet secret file.facts)

variable {host : OpenHost} {used : EncryptionProvider → Prop} {alone : Prop} {lastRowid : Nat}
  {file : StoreFile} {processes : Nat → Option OpenProcess} {texts : TextMap}

/-! ### Opening -/

theorem OneSecret.opens (hfts5 : host.fts5 = true) (hkeys : KeysApart host.fernet used)
    {p : Nat} {provider : EncryptionProvider} {moment : ByteArray} (hused : used provider)
    (hp : processes p = none) (h : OneSecret host used alone file processes texts)
    (halone : alone → provider.encrypting = true → ∀ q process, processes q = some process →
      process.store.provider.encrypting = true) :
    OneSecret host used alone (host.initSchema provider moment file).1
      (Function.update processes p
        ((host.initSchema provider moment file).2.toOption.map fun store => ⟨store, none⟩))
      texts := by
  -- a process is the new one or was there before
  have hcases : ∀ {opened : Option OpenProcess} {q process},
      Function.update processes p opened q = some process →
        opened = some process ∨ processes q = some process := by
    intro opened q process hq
    by_cases hqp : q = p
    · subst hqp
      exact .inl (by simpa using hq)
    · exact .inr (by simpa [Function.update_of_ne hqp] using hq)
  have hnew : ∀ {result : Except StoreEncryptionError OpenStore} {process : OpenProcess},
      result.toOption.map (fun store => (⟨store, none⟩ : OpenProcess)) = some process →
        result = .ok process.store := by
    intro result process hresult
    cases result with
    | error e => simp [Except.toOption] at hresult
    | ok store =>
        simp only [Except.toOption, Option.map_some, Option.some.injEq] at hresult
        rw [← hresult]
  have hhas : ∀ {secret : EncryptionProvider}, provider.SameSecret secret →
      OpenStore.Has ⟨provider, false, false⟩ secret :=
    fun hsame => ⟨hsame, hkeys.wellFormed provider hused⟩
  generalize hresult : host.initSchema provider moment file = result
  cases h with
  | plain hfile hopen =>
      rcases hfile.opened hfts5 hkeys hused hresult with
        ⟨hafter, hmark, hstore⟩ | ⟨hafter, hfts, hfacts, hkey, hstore⟩
      · refine .plain hafter fun q process hq => ⟨?_, hmark⟩
        rcases hcases hq with hq | hq
        · exact hstore _ (hnew hq)
        · exact (hopen q process hq).1
      · refine .owned provider hafter (fun q process hq => ?_) fun _ => hfacts
        rcases hcases hq with hq | hq
        · rw [hstore _ (hnew hq)]
          exact .inl (hhas (.refl provider))
        · have hkeyless := (hopen q process hq).1
          refine .inr ⟨hkeyless, hfts, fun ha => ?_⟩
          simpa [hkeyless, OpenStore.keyless, EncryptionProvider.encrypting]
            using halone ha hkey q process hq
  | legacy secret hfile hclosed =>
      rcases hfile.opened hfts5 hkeys hused hresult with
        ⟨hafter, e, herror⟩ | ⟨hafter, hfts, hfacts, hsame, hstore⟩
      · refine .legacy secret hafter fun q => ?_
        rw [herror, ← Option.not_isSome_iff_eq_none, Option.isSome_iff_exists]
        rintro ⟨process, hq⟩
        rcases hcases hq with hq | hq
        · cases hq
        · simp [hclosed] at hq
      · refine .owned secret hafter (fun q process hq => ?_) fun _ => hfacts
        rcases hcases hq with hq | hq
        · rw [hstore _ (hnew hq)]
          exact .inl (hhas hsame)
        · simp [hclosed] at hq
  | owned secret hfile hopen hfacts =>
      obtain ⟨hafter, hfts, hmade, hstore⟩ := hfile.opened hfts5 hkeys hused hresult
      refine .owned secret hafter (fun q process hq => ?_) fun ha => hmade (hfacts ha)
      rcases hcases hq with hq | hq
      · obtain ⟨hnew', hsame, -⟩ := hstore _ (hnew hq)
        rw [hnew']
        exact .inl (hhas hsame)
      · rcases hopen q process hq with hhas' | ⟨hkeyless, hnone, hnot⟩
        · exact .inl hhas'
        · exact .inr ⟨hkeyless, hfts hnone, hnot⟩

/-! ### Calls -/

theorem OneSecret.call {store : OpenStore} {p : Nat} {call : StoreCall} {seen : SeenRow}
    {after : StoreFile} (h : OneSecret host used alone file processes texts)
    (hp : processes p = some ⟨store, some (call, seen)⟩)
    (hcall : host.call store lastRowid seen file call = .ok after) :
    OneSecret host used alone after (Function.update processes p (some ⟨store, none⟩))
      (call.texts seen texts) := by
  have hframed := call_framed hcall
  -- the stores are those from before
  have hcases : ∀ {q process}, Function.update processes p (some ⟨store, none⟩) q = some process →
      ∃ before, processes q = some before ∧ before.store = process.store := by
    intro q process hq
    by_cases hqp : q = p
    · subst hqp
      simp only [Function.update_self, Option.some.injEq] at hq
      exact ⟨_, hp, by rw [← hq]⟩
    · exact ⟨process, by simpa [Function.update_of_ne hqp] using hq, rfl⟩
  cases h with
  | plain hfile hopen =>
      obtain ⟨hstore, hmark⟩ := hopen p _ hp
      have hhas : store.Has .noOp := by
        rw [show store = .keyless from hstore]
        exact ⟨.refl .noOp, trivial⟩
      have hjudged := hfile.judged
      obtain ⟨value, hvalue⟩ := Option.ne_none_iff_exists'.mp hmark
      refine .plain ⟨hfile.represents.call hhas hcall, hfile.facts.call hhas hcall,
        hframed.info ▸ hfile.check, ?_⟩ fun q process hq => ?_
      · simpa [StoreFile.judgedEncrypted, hframed.info, hvalue] using hjudged
      · obtain ⟨before, hbefore, hsame⟩ := hcases hq
        exact ⟨hsame ▸ (hopen q before hbefore).1, hframed.info ▸ hmark⟩
  | legacy secret hfile hclosed => simp [hclosed] at hp
  | owned secret hfile hopen hfacts =>
      have hrep : Represents host.fernet secret after.fragments (call.texts seen texts) := by
        rcases hopen p _ hp with hhas | ⟨hkeyless, hnone, -⟩
        · exact hfile.represents.call hhas hcall
        · refine hfile.represents.call_stale ⟨?_, hnone⟩ hcall
          rw [show store = .keyless from hkeyless]
          rfl
      refine .owned secret ⟨hfile.used, hfile.encrypting, hrep, hframed.info ▸ hfile.mark, ?_⟩
        (fun q process hq => ?_) fun ha => ?_
      · obtain ⟨check, token, hcheck, hbytes, hmade⟩ := hfile.checked
        exact ⟨check, token, hframed.info ▸ hcheck, hbytes, hmade⟩
      · obtain ⟨before, hbefore, hsame⟩ := hcases hq
        rw [← hsame]
        rcases hopen q before hbefore with hhas | ⟨hkeyless, hnone, hnot⟩
        · exact .inl hhas
        · exact .inr ⟨hkeyless, hframed.fts hnone, hnot⟩
      · rcases hopen p _ hp with hhas | ⟨-, -, hnot⟩
        · exact (hfacts ha).call hhas hcall
        · exact absurd ha hnot

/-! ### Runs -/

/-- Fewer processes, or other calls of theirs, do not matter. -/
theorem OneSecret.of_stores {processes' : Nat → Option OpenProcess}
    (h : OneSecret host used alone file processes texts)
    (hstores : ∀ q process, processes' q = some process →
      ∃ before, processes q = some before ∧ before.store = process.store) :
    OneSecret host used alone file processes' texts := by
  cases h with
  | plain hfile hopen =>
      refine .plain hfile fun q process hq => ?_
      obtain ⟨before, hbefore, hsame⟩ := hstores q process hq
      exact hsame ▸ hopen q before hbefore
  | legacy secret hfile hclosed =>
      refine .legacy secret hfile fun q => ?_
      cases hq : processes' q with
      | none => rfl
      | some process =>
          obtain ⟨before, hbefore, -⟩ := hstores q process hq
          simp [hclosed] at hbefore
  | owned secret hfile hopen hfacts =>
      refine .owned secret hfile (fun q process hq => ?_) hfacts
      obtain ⟨before, hbefore, hsame⟩ := hstores q process hq
      exact hsame ▸ hopen q before hbefore

/-- Another call of a process, or none. -/
theorem OneSecret.of_pending (h : OneSecret host used alone file processes texts) {p : Nat}
    {store : OpenStore} {before : Option (StoreCall × SeenRow)}
    (hp : processes p = some ⟨store, before⟩) (after : Option (StoreCall × SeenRow)) :
    OneSecret host used alone file (Function.update processes p (some ⟨store, after⟩)) texts := by
  refine h.of_stores fun q process hq => ?_
  by_cases hqp : q = p
  · subst hqp
    simp only [Function.update_self, Option.some.injEq] at hq
    exact ⟨_, hp, by rw [← hq]⟩
  · exact ⟨process, by simpa [Function.update_of_ne hqp] using hq, rfl⟩

def OpenStep.Uses (used : EncryptionProvider → Prop) : OpenStep → Prop
  | .opens _ provider _ => used provider
  | _ => True

theorem OneSecret.step (hfts5 : host.fts5 = true) (hkeys : KeysApart host.fernet used)
    {step : OpenStep} {s : OpenWorld × TextMap} (hused : step.Uses used)
    (halone : alone → step.Alone s)
    (h : OneSecret host used alone s.1.file s.1.processes s.2) :
    OneSecret host used alone (step.both host s).1.file (step.both host s).1.processes
      (step.both host s).2 := by
  obtain ⟨w, texts⟩ := s
  cases step with
  | opens p provider moment =>
      cases hp : w.processes p with
      | some process => simpa [OpenStep.both, OpenStep.apply, OpenStep.texts, hp] using h
      | none =>
          have hafter := @OneSecret.opens host used alone w.file w.processes texts hfts5 hkeys p
            provider moment hused hp h halone
          simpa [OpenStep.both, OpenStep.apply, OpenStep.texts, hp] using hafter
  | closes p =>
      refine h.of_stores fun q process hq => ?_
      by_cases hqp : q = p
      · subst hqp
        simp [OpenStep.both, OpenStep.apply] at hq
      · have hbefore : w.processes q = some process := by
          simpa [OpenStep.both, OpenStep.apply, Function.update_of_ne hqp] using hq
        exact ⟨process, hbefore, rfl⟩
  | begins p call =>
      cases hp : w.processes p with
      | none => simpa [OpenStep.both, OpenStep.apply, OpenStep.texts, hp] using h
      | some process =>
          obtain ⟨store, pending⟩ := process
          cases pending with
          | some pending => simpa [OpenStep.both, OpenStep.apply, OpenStep.texts, hp] using h
          | none =>
              have hafter := h.of_pending hp (some (call, call.look w.file))
              simpa [OpenStep.both, OpenStep.apply, OpenStep.texts, hp] using hafter
  | finish p fails lastRowid =>
      cases hp : w.processes p with
      | none => simpa [OpenStep.both, OpenStep.apply, OpenStep.texts, hp] using h
      | some process =>
          obtain ⟨store, pending⟩ := process
          cases pending with
          | none => simpa [OpenStep.both, OpenStep.apply, OpenStep.texts, hp] using h
          | some pending =>
              obtain ⟨call, seen⟩ := pending
              have hback := h.of_pending hp none
              cases hcall : host.call store lastRowid seen w.file call with
              | error e =>
                  simpa [OpenStep.both, OpenStep.apply, OpenStep.texts, OpenHost.commit, hp, hcall]
                    using hback
              | ok after =>
                  cases fails with
                  | true =>
                      simpa [OpenStep.both, OpenStep.apply, OpenStep.texts, OpenHost.commit, hp,
                        hcall] using hback
                  | false =>
                      simpa [OpenStep.both, OpenStep.apply, OpenStep.texts, OpenHost.commit, hp,
                        hcall] using h.call hp hcall

theorem Represents.read (hfernet : host.fernet.Lawful) {secret : EncryptionProvider}
    {store : OpenStore} (h : Represents host.fernet secret file.fragments texts)
    (hstore : store.Has secret) (id : String) :
    store.read host file id = (texts id).map fun m => .ok m.2 := by
  unfold OpenStore.read
  cases hfind : file.fragments.find? id with
  | none =>
      have htexts : texts id = none := by
        by_contra hsome
        obtain ⟨n, r, hr, hid⟩ := h.present id (Option.ne_none_iff_isSome.mp hsome)
        exact RowidTable.find?_eq_none_iff.mp hfind n r hr hid
      simp [htexts]
  | some e =>
      obtain ⟨n, r⟩ := e
      obtain ⟨hr, rfl⟩ := RowidTable.find?_eq_some_iff.mp hfind
      obtain ⟨text, hmade, htext⟩ := h.row n r hr
      have hread := hmade.read hfernet
      rw [← hstore.sameSecret.decryptStr_eq] at hread
      simp [htext, hread]

theorem OneSecret.start {file : StoreFile} {texts : TextMap}
    (hfile : file.Plain host.fernet texts ∨ ∃ secret, file.Legacy host.fernet used texts secret ∨
      file.Owned host.fernet used texts secret ∧
        (alone → FactsMade host.fernet secret file.facts)) :
    OneSecret host used alone file (fun _ => none) texts := by
  rcases hfile with hplain | ⟨secret, hlegacy | ⟨howned, hfacts⟩⟩
  · exact .plain hplain (by simp)
  · exact .legacy secret hlegacy (by simp)
  · exact .owned secret howned (by simp) hfacts

/-- The secret of a file is a key exactly if the file is taken for encrypted. -/
theorem OneSecret.secret (h : OneSecret host used alone file processes texts) :
    ∃ secret, Represents host.fernet secret file.fragments texts ∧
      (secret.encrypting = true ↔ file.judgedEncrypted false = true) ∧
      (alone → FactsMade host.fernet secret file.facts) ∧
      ∀ p process, processes p = some process →
        process.store.Has secret ∨ process.store.Stale file ∧ ¬alone := by
  cases h with
  | plain hfile hopen =>
      refine ⟨.noOp, hfile.represents, by simp [hfile.judged, EncryptionProvider.encrypting],
        fun _ => hfile.facts, fun p process hp => .inl ?_⟩
      rw [(hopen p process hp).1]
      exact ⟨.refl .noOp, trivial⟩
  | legacy secret hfile hclosed =>
      refine ⟨secret, hfile.represents, ?_, fun _ => hfile.facts, by simp [hclosed]⟩
      obtain ⟨data, looking, hlooks⟩ := hfile.looks
      rcases hfile.mark with hmark | hmark <;>
        simp [StoreFile.judgedEncrypted, hmark, hlooks, hfile.encrypting]
  | owned secret hfile hopen hfacts =>
      refine ⟨secret, hfile.represents, ?_, hfacts, fun p process hp => ?_⟩
      · simp [hfile.encrypting, judgedEncrypted_of_mark hfile.mark]
      · rcases hopen p process hp with hhas | ⟨hkeyless, hnone, hnot⟩
        · exact .inl hhas
        · refine .inr ⟨⟨?_, hnone⟩, hnot⟩
          rw [hkeyless]
          rfl

theorem one_secret (host : OpenHost) (hfts5 : host.fts5 = true) (hfernet : host.fernet.Lawful)
    (used : EncryptionProvider → Prop) (hkeys : KeysApart host.fernet used) (file : StoreFile)
    (texts : TextMap)
    (hfile : file.Plain host.fernet texts ∨ ∃ secret, file.Legacy host.fernet used texts secret ∨
      file.Owned host.fernet used texts secret)
    (steps : List OpenStep) (hused : ∀ step ∈ steps, step.Uses used) :
    let s := run (OpenStep.both host) steps (.start file, texts)
    ∃ secret, Represents host.fernet secret s.1.file.fragments s.2 ∧
      (secret.encrypting = true ↔ s.1.file.judgedEncrypted false = true) ∧
      ∀ p process, s.1.processes p = some process →
        (∀ id, process.store.read host s.1.file id = (s.2 id).map fun m => .ok m.2) ∨
          process.store.Stale s.1.file := by
  have hstart : OneSecret host used False file (fun _ => none) texts :=
    .start (by simpa using hfile)
  have hrun := (along_of_forall (fun step hmem _ => hused step hmem) (OpenWorld.start file, texts)
    : Along (OpenStep.both host) (fun step _ => step.Uses used) steps _).invariant
    (I := fun s => OneSecret host used False s.1.file s.1.processes s.2)
    (fun step s hs hstep => hs.step hfts5 hkeys hstep False.elim) hstart
  obtain ⟨secret, hrep, hkey, -, hopen⟩ := hrun.secret
  refine ⟨secret, hrep, hkey, fun p process hp => ?_⟩
  rcases hopen p process hp with hhas | ⟨hstale, -⟩
  · exact .inl fun id => hrep.read hfernet hhas id
  · exact .inr hstale

/-- `Fernet` with the length of the key in place of its signature. -/
def Fernet.tagged : Fernet where
  encrypt key _ data := tokenPrefix ++ ⟨#[UInt8.ofNat key.size]⟩ ++ data
  decrypt key column :=
    match column with
    | .blob token =>
        let start := tokenPrefix ++ ⟨#[UInt8.ofNat key.size]⟩
        if startsWithBytes start token then some (token.extract start.size token.size) else none
    | _ => none
  derive passphrase _ := passphrase

theorem startsWithBytes_append (start data : ByteArray) :
    startsWithBytes start (start ++ data) = true := by
  unfold startsWithBytes
  rw [List.isPrefixOf_iff_prefix, ByteArray.data_append, Array.toList_append]
  exact List.prefix_append _ _

theorem lawful_tagged : Fernet.tagged.Lawful where
  decrypt_encrypt key moment data := by
    simp only [Fernet.tagged, startsWithBytes_append, if_true]
    exact congrArg some (ByteArray.extract_append_eq_right rfl ByteArray.size_append)
  token key moment data := by
    show startsWithBytes tokenPrefix (tokenPrefix ++ _ ++ data) = true
    rw [ByteArray.append_assoc]
    exact startsWithBytes_append _ _
  version key text data h := by cases h

def twoKeys (p : EncryptionProvider) : Prop :=
  p = .noOp ∨ p = .keyed "k".toUTF8 ∨ p = .keyed "key".toUTF8

theorem tagged_apart {key key' : ByteArray} (hne : UInt8.ofNat key.size ≠ UInt8.ofNat key'.size)
    (moment data : ByteArray) :
    Fernet.tagged.decrypt key (.blob (Fernet.tagged.encrypt key' moment data)) = none := by
  simp only [Fernet.tagged]
  rw [if_neg]
  intro hstart
  unfold startsWithBytes at hstart
  rw [List.isPrefixOf_iff_prefix] at hstart
  simp only [ByteArray.data_append, Array.toList_append, List.append_assoc,
    List.prefix_append_right_inj, List.cons_append, List.cons_prefix_cons] at hstart
  exact hne hstart.1

theorem sameSecret_tagged {key key' : ByteArray} {text : String} {column read : Column}
    (hsize : UInt8.ofNat key.size = UInt8.ofNat key'.size → key = key')
    (hmade : column.MadeOf .tagged (.keyed key') text)
    (hread : (EncryptionProvider.keyed key).decrypt .tagged (.blob column.asBytes) = .ok read) :
    (EncryptionProvider.keyed key).SameSecret (.keyed key') := by
  obtain ⟨maker, moment, hsame, -, rfl⟩ := hmade
  cases maker with
  | noOp => cases hsame
  | stretched passphrase salt => cases hsame
  | keyed made =>
      obtain rfl : made = key' := hsame
      refine hsize ?_
      by_contra hne
      simp [EncryptionProvider.decrypt, EncryptionProvider.encryptStr, EncryptionProvider.encrypt,
        Column.asBytes, tagged_apart hne] at hread

theorem keysApart_tagged : KeysApart .tagged twoKeys where
  wellFormed p hp := by rcases hp with rfl | rfl | rfl <;> trivial
  sameSecret p q text column read hp hq hpkey hqkey hmade hread := by
    have hk : UInt8.ofNat "k".toUTF8.size ≠ UInt8.ofNat "key".toUTF8.size := by decide
    rcases hp with rfl | rfl | rfl
    · cases hpkey
    · rcases hq with rfl | rfl | rfl
      · cases hqkey
      · exact .refl _
      · exact sameSecret_tagged (fun h => absurd h.symm hk) hmade hread
    · rcases hq with rfl | rfl | rfl
      · cases hqkey
      · exact sameSecret_tagged (fun h => absurd h hk) hmade hread
      · exact .refl _

/-- A machine with that `Fernet`. -/
def taggedHost : OpenHost := { plainHost with fernet := .tagged }

theorem plain_empty (fernet : Fernet) : StoreFile.empty.Plain fernet fun _ => none where
  represents := ⟨fun n r hr => (by cases hr), fun id hid => (by cases hid)⟩
  facts n r hr := by cases hr
  check := rfl
  judged := rfl

/-- A key comes to a new file that is open without one, and another key is tried. -/
def keyRun : List OpenStep :=
  [.opens 0 .noOp .empty, .opens 1 (.keyed "k".toUTF8) .empty,
    .opens 2 (.keyed "key".toUTF8) .empty] ++
    writesNote 0 "a" "port 80" ++ writesNote 1 "b" "port 81"

theorem one_secret_of_keys :
    let s := run (OpenStep.both taggedHost) keyRun (.start .empty, fun _ => none)
    ∃ secret, Represents Fernet.tagged secret s.1.file.fragments s.2 ∧
      (secret.encrypting = true ↔ s.1.file.judgedEncrypted false = true) ∧
      ∀ p process, s.1.processes p = some process →
        (∀ id, process.store.read taggedHost s.1.file id = (s.2 id).map fun m => .ok m.2) ∨
          process.store.Stale s.1.file := by
  refine one_secret taggedHost rfl lawful_tagged twoKeys keysApart_tagged .empty (fun _ => none)
    (.inl (plain_empty _)) keyRun fun step hstep => ?_
  simp only [keyRun, writesNote, List.cons_append, List.nil_append, List.mem_cons,
    List.not_mem_nil, or_false] at hstep
  rcases hstep with rfl | rfl | rfl | rfl | rfl | rfl | rfl <;>
    simp [OpenStep.Uses, twoKeys]

/-- Without a process that missed the first key the facts have the secret too. -/
theorem facts_one_secret (host : OpenHost) (hfts5 : host.fts5 = true)
    (used : EncryptionProvider → Prop) (hkeys : KeysApart host.fernet used) (file : StoreFile)
    (texts : TextMap)
    (hfile : file.Plain host.fernet texts ∨ ∃ secret, file.Legacy host.fernet used texts secret ∨
      file.Owned host.fernet used texts secret ∧ FactsMade host.fernet secret file.facts)
    (steps : List OpenStep) (hused : ∀ step ∈ steps, step.Uses used)
    (halone : Along (OpenStep.both host) OpenStep.Alone steps (.start file, texts)) :
    let s := run (OpenStep.both host) steps (.start file, texts)
    ∃ secret, Represents host.fernet secret s.1.file.fragments s.2 ∧
      FactsMade host.fernet secret s.1.file.facts ∧
      ∀ p process, s.1.processes p = some process → process.store.Has secret := by
  have hstart : OneSecret host used True file (fun _ => none) texts :=
    .start (by simpa using hfile)
  have hrun := (halone.and (along_of_forall (fun step hmem _ => hused step hmem) _)).invariant
    (I := fun s => OneSecret host used True s.1.file s.1.processes s.2)
    (fun step s hs hstep => hs.step hfts5 hkeys hstep.2 fun _ => hstep.1) hstart
  obtain ⟨secret, hrep, -, hfacts, hopen⟩ := hrun.secret
  refine ⟨secret, hrep, hfacts trivial, fun p process hp => ?_⟩
  rcases hopen p process hp with hhas | ⟨-, hnot⟩
  · exact hhas
  · exact absurd trivial hnot

theorem facts_one_secret_of_key :
    let steps := [OpenStep.opens 1 (.keyed "k".toUTF8) .empty,
      .begins 1 (.insertFact "f" .empty "80"), .finish 1 false 0]
    let s := run (OpenStep.both taggedHost) steps (.start .empty, fun _ => none)
    ∃ secret, Represents Fernet.tagged secret s.1.file.fragments s.2 ∧
      FactsMade Fernet.tagged secret s.1.file.facts ∧
      ∀ p process, s.1.processes p = some process → process.store.Has secret := by
  refine facts_one_secret taggedHost rfl twoKeys keysApart_tagged .empty (fun _ => none)
    (.inl (plain_empty _)) _ (fun step hstep => ?_) ⟨?_, trivial, trivial, trivial⟩
  · simp only [List.mem_cons, List.not_mem_nil, or_false] at hstep
    rcases hstep with rfl | rfl | rfl <;> simp [OpenStep.Uses, twoKeys]
  · intro _ q process hq
    cases hq

end MarkSdk
