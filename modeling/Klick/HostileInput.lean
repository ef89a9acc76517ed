-- The WebAuthn checks on any bytes. The signer answers with a result or a failure,
-- unless the client data is null, the key of a credential is cut before two
-- bytes of a length, or node throws; the verifier of documents likewise.
import Klick.CborReader
import Klick.DocumentSignature

open Js

namespace Klick

/-! ## What is thrown -/

section Total

variable {α β : Type}

/-- A result, or a `WebAuthnFailure`. -/
def Total (x : Except WebAuthnThrown α) : Prop := ∀ e, x = .error e → ∃ code, e = .failure code

theorem total_ok (a : α) : Total (.ok a : Except WebAuthnThrown α) := nofun

theorem total_failure (code : WebAuthnError) :
    Total (.error (.failure code) : Except WebAuthnThrown α) :=
  fun _ he => ⟨code, (Except.error.inj he).symm⟩

theorem total_bind {x : Except WebAuthnThrown α} {f : α → Except WebAuthnThrown β} :
    Total (x >>= f) ↔ Total x ∧ ∀ a, x = .ok a → Total (f a) := by
  cases x with
  | error e =>
    constructor
    · intro h
      exact ⟨fun e' he' => h e' (by rw [Except.error.inj he']; rfl), nofun⟩
    · rintro ⟨h, -⟩ e' he'
      exact h e' (by rw [Except.error.inj he'])
  | ok a =>
    constructor
    · intro h
      refine ⟨total_ok a, ?_⟩
      rintro b hb
      obtain rfl := Except.ok.inj hb
      exact h
    · rintro ⟨-, h⟩
      exact h a rfl

theorem total_pure (a : α) : Total (pure a : Except WebAuthnThrown α) := total_ok a

theorem total_failUnless (b : Bool) (code : WebAuthnError) : Total (failUnless b code) := by
  cases b
  · exact total_failure code
  · exact total_ok ()

theorem total_orRefuse (v : Option α) (code : WebAuthnError) :
    Total (orRefuse v (.failure code)) := by
  cases v
  · exact total_failure code
  · exact total_ok _

theorem total_b64uDecode (s : Text) (max : ℕ) : Total (b64uDecode s max) :=
  total_bind.2 ⟨total_failUnless _ _, fun _ _ => total_pure _⟩

end Total

/-! ## Client data -/

theorem parseItems_arr {n : ℕ} {t : Text} {acc : List Value} {v : Value} {r : Text}
    (h : parseItems n t acc = some (v, r)) : ∃ items, v = .arr items := by
  induction n generalizing t acc with
  | zero => cases h
  | succ n ih =>
    rw [parseItems] at h
    obtain ⟨⟨w, rest⟩, -, h⟩ := Option.bind_eq_some_iff.mp h
    simp only at h
    split at h
    · cases h
    · split at h
      · exact ih h
      · split at h
        · cases h
          exact ⟨_, rfl⟩
        · cases h

theorem parseFields_obj {n : ℕ} {t : Text} {acc : List (Text × Value)} {v : Value} {r : Text}
    (h : parseFields n t acc = some (v, r)) : ∃ fields, v = .obj fields := by
  induction n generalizing t acc with
  | zero => cases h
  | succ n ih =>
    rw [parseFields] at h
    split at h
    · cases h
    · split at h
      · obtain ⟨⟨k, rest⟩, -, h⟩ := Option.bind_eq_some_iff.mp h
        simp only at h
        split at h
        · cases h
        · split at h
          · obtain ⟨⟨w, rest'⟩, -, h⟩ := Option.bind_eq_some_iff.mp h
            simp only at h
            split at h
            · cases h
            · split at h
              · exact ih h
              · split at h
                · cases h
                  exact ⟨_, rfl⟩
                · cases h
          · cases h
      · cases h

/-- Nothing that is written is undefined. -/
theorem parseJson_ne_undefined {t : Text} {v : Value} (h : parseJson t = .ok v) :
    v ≠ .undefined := by
  rintro rfl
  unfold parseJson at h
  split at h
  · rename_i w r hw
    split at h
    · obtain rfl := Except.ok.inj h
      rw [show 2 * t.length + 2 = (2 * t.length + 1) + 1 from rfl, parseValue] at hw
      split at hw
      · cases hw
      · split_ifs at hw
        · obtain ⟨p, -, hp⟩ := Option.map_eq_some_iff.mp hw
          cases hp
        · split at hw
          · cases hw
          · split_ifs at hw
            · cases hw
            · obtain ⟨items, hi⟩ := parseItems_arr hw
              cases hi
        · split at hw
          · cases hw
          · split_ifs at hw
            · cases hw
            · obtain ⟨fields, hf⟩ := parseFields_obj hw
              cases hf
        · obtain ⟨p, -, hp⟩ := Option.map_eq_some_iff.mp hw
          cases hp
        · unfold parseLiteral at hw
          split at hw <;> cases hw
    · cases h
  · cases h

theorem clientProp_of_object {cd : Value} (hnull : cd ≠ .null) (hundef : cd ≠ .undefined)
    (k : String) : clientProp cd k = .ok (cd.get (js k)) := by
  unfold clientProp Value.prop
  cases cd with
  | undefined => exact absurd rfl hundef
  | null => exact absurd rfl hnull
  | _ => rfl

theorem clientProp_null (k : String) : clientProp .null k = .error (.exn .typeError) := rfl

/-- Client data that is the JSON text null. -/
def IsNull (raw : Bytes) : Prop := parseJson (utf8Decode raw) = .ok .null

/-- Only null has no properties. -/
theorem checkClientData_total_iff (raw : Bytes) (want : ClientDataWanted) :
    Total (checkClientData raw want) ↔ (raw.length ≤ 2048 → ¬ IsNull raw) := by
  unfold checkClientData IsNull
  simp only [total_bind, total_failUnless, true_and, failUnless_eq_ok, decide_eq_true_eq,
    forall_const]
  apply imp_congr_right
  intro _
  cases hp : parseJson (utf8Decode raw) with
  | error e =>
    constructor
    · exact fun _ => nofun
    · exact fun _ => ⟨total_failure _, nofun⟩
  | ok cd =>
    by_cases hnull : cd = .null
    · subst hnull
      constructor
      · rintro ⟨-, h⟩ -
        obtain ⟨h, -⟩ := h .null rfl
        rw [clientProp_null] at h
        obtain ⟨code, hcode⟩ := h _ rfl
        cases hcode
      · intro h
        exact absurd rfl h
    · have hprop := clientProp_of_object hnull (parseJson_ne_undefined hp)
      constructor
      · rintro - h
        exact hnull (Except.ok.inj h)
      · intro _
        refine ⟨total_ok _, ?_⟩
        intro cd' hcd'
        obtain rfl := Except.ok.inj hcd'
        simp only [hprop, total_ok, implies_true, and_self]

/-! ## Authenticator data -/

/-- The flags stand behind the hash of the relying party. -/
def authFlags (buf : Bytes) : ℕ := bigEndian ((buf.drop 32).take 1)

/-- The announced length of the id of a credential. -/
def credLength (buf : Bytes) : ℕ := bigEndian ((buf.drop 53).take 2)

/-- The id of a credential is there, and a key may follow it. -/
structure HasKey (buf : Bytes) : Prop where
  size : 55 ≤ buf.length ∧ buf.length ≤ 1024
  flag : (authFlags buf).testBit flagAT = true
  length : 16 ≤ credLength buf ∧ credLength buf ≤ 1023
  room : 55 + credLength buf ≤ buf.length

/-- The key of the credential ends inside the two bytes of a length. -/
def CutInKey (buf : Bytes) : Prop :=
  HasKey buf ∧ CborCut .word cborLevels (buf.drop (55 + credLength buf))

theorem total_cborDecode_iff {buf : Bytes} {levels pos : ℕ} (hpos : pos ≤ buf.length) :
    Total (cborDecode buf levels (some pos)).result ↔ ¬ CborCut .word levels (buf.drop pos) := by
  constructor
  · intro h hcut
    obtain ⟨hres, hne⟩ := (cborDecode_throws_iff hpos (.exn .rangeError)).mpr ⟨rfl, hcut⟩
    obtain ⟨code, hcode⟩ := h _ hres
    exact hne code hcode
  · intro h e he
    by_contra hne
    have hthrown := (cborDecode_throws_iff hpos e).mp ⟨he, fun code hc => hne ⟨code, hc⟩⟩
    exact h hthrown.2

theorem parseAttested_total_iff (buf : Bytes) :
    Total (parseAttested buf) ↔ (55 ≤ buf.length → 16 ≤ credLength buf ∧ credLength buf ≤ 1023 →
      55 + credLength buf ≤ buf.length →
      ¬ CborCut .word cborLevels (buf.drop (55 + credLength buf))) := by
  unfold parseAttested
  simp only [total_bind, total_failUnless, true_and, failUnless_eq_ok, decide_eq_true_eq,
    Bool.and_eq_true, forall_const]
  change (37 + 18 ≤ buf.length → (16 ≤ credLength buf ∧ credLength buf ≤ 1023) ∧
    55 + credLength buf ≤ buf.length →
    Total (cborDecode buf cborLevels (some (55 + credLength buf))).result ∧ _) ↔ _
  constructor
  · intro h h1 h2 h3
    exact (total_cborDecode_iff h3).mp (h h1 ⟨h2, h3⟩).1
  · intro h h1 h2
    exact ⟨(total_cborDecode_iff h2.2).mpr (h h1 h2.1 h2.2), fun _ _ => total_pure _⟩

theorem parseAuthData_total_iff (buf : Bytes) : Total (parseAuthData buf) ↔ ¬ CutInKey buf := by
  unfold parseAuthData
  simp only [total_bind, total_failUnless, true_and, failUnless_eq_ok, decide_eq_true_eq,
    Bool.and_eq_true, forall_const]
  change (37 ≤ buf.length ∧ buf.length ≤ 1024 →
    Total (if (authFlags buf).testBit flagAT = true then _ else _)) ↔ _
  constructor
  · rintro h ⟨⟨hsize, hflag, hlen, hroom⟩, hcut⟩
    have h := h ⟨by omega, hsize.2⟩
    rw [if_pos hflag] at h
    exact (parseAttested_total_iff buf).mp (total_bind.1 h).1 hsize.1 hlen hroom hcut
  · intro h hsize
    by_cases hflag : (authFlags buf).testBit flagAT = true
    · rw [if_pos hflag]
      refine total_bind.2 ⟨(parseAttested_total_iff buf).mpr ?_, ?_⟩
      · intro h1 h2 h3 hcut
        exact h ⟨⟨⟨h1, hsize.2⟩, hflag, h2, h3⟩, hcut⟩
      · intro _ _
        simp only [total_bind, total_pure, total_failUnless, implies_true, and_self]
    · rw [if_neg hflag]
      simp only [total_bind, total_pure, total_failUnless, implies_true, and_self]

/-- The attested credential: its id with its length before it, and one item of CBOR. -/
inductive AttestedBytes : Option Attested → Bytes → Prop
  | none : AttestedBytes none []
  | some {aaguid size credId key cose} : aaguid.length = 16 → size.length = 2 →
      credId.length = bigEndian size → 16 ≤ credId.length → credId.length ≤ 1023 →
      CborItem cborLevels key cose [] →
      AttestedBytes (some ⟨aaguid, credId, cose⟩) (aaguid ++ (size ++ (credId ++ key)))

/-- The bytes of authenticator data, with nothing left over. -/
structure AuthBytes (buf : Bytes) (a : AuthData) : Prop where
  parts : ∃ flags counter attested, buf = a.rpIdHash ++ (flags ++ (counter ++ attested)) ∧
    a.rpIdHash.length = 32 ∧ flags.length = 1 ∧ a.flags = bigEndian flags ∧ counter.length = 4 ∧
    a.counter = bigEndian counter ∧ AttestedBytes a.attested attested
  size : buf.length ≤ 1024
  attested : a.flags.testBit flagAT = a.attested.isSome
  noExtensions : a.flags.testBit flagED = false

/-- A part of a list, by the lengths of what is before it and of itself. -/
theorem part_of_append {α : Type} (pre mid post : List α) {n m : ℕ} (hn : pre.length = n)
    (hm : mid.length = m) : ((pre ++ (mid ++ post)).drop n).take m = mid := by
  rw [List.drop_left' hn, List.take_left' hm]

theorem drop_eq_parts (buf : Bytes) (n m : ℕ) :
    buf.drop n = (buf.drop n).take m ++ buf.drop (n + m) := by
  rw [← List.drop_drop, List.take_append_drop]

theorem bigEndian_two_length {buf : Bytes} (h : 55 ≤ buf.length) :
    ((buf.drop 53).take 2).length = 2 := by
  rw [List.length_take, List.length_drop]
  omega

/-- An attested credential that is accepted up to the end of the data. -/
theorem parseAttested_eq_ok {buf : Bytes} {att : Attested} :
    parseAttested buf = .ok (att, some buf.length) ↔
      55 ≤ buf.length ∧ AttestedBytes (some att) (buf.drop 37) := by
  unfold parseAttested
  simp only [bind_eq_ok, failUnless_eq_ok, exists_const, pure_eq_ok, decide_eq_true_eq,
    Bool.and_eq_true]
  constructor
  · rintro ⟨h55, ⟨⟨h16, h1023⟩, hroom⟩, ⟨cose, next⟩, hcose, hatt⟩
    obtain ⟨rfl, rfl⟩ := Prod.mk.inj hatt
    have hitem := (cborDecode_takes_iff hroom le_rfl).mp hcose
    rw [List.drop_of_length_le le_rfl] at hitem
    refine ⟨h55, ?_⟩
    have hbytes : buf.drop 37 = (buf.drop 37).take 16 ++ ((buf.drop 53).take 2 ++
        ((buf.drop 55).take (credLength buf) ++ buf.drop (55 + credLength buf))) := by
      rw [← drop_eq_parts, ← drop_eq_parts buf 53, ← drop_eq_parts buf 37]
    have hcred : ((buf.drop 55).take (credLength buf)).length = credLength buf := by
      rw [List.length_take, List.length_drop]
      unfold credLength
      omega
    have haaguid : ((buf.drop 37).take 16).length = 16 := by
      rw [List.length_take, List.length_drop]
      omega
    have hall := AttestedBytes.some haaguid (bigEndian_two_length h55) hcred
      (by rw [hcred]; exact h16) (by rw [hcred]; exact h1023) hitem
    change AttestedBytes _ (_ ++ (_ ++ (_ ++ buf.drop (55 + credLength buf)))) at hall
    rw [← hbytes] at hall
    exact hall
  · rintro ⟨h55, hbytes⟩
    generalize hrest : buf.drop 37 = rest at hbytes
    cases hbytes with
    | @some aaguid size credId key cose h16 h2 hlen hmin hmax hitem =>
      have hbuf : buf = buf.take 37 ++ (aaguid ++ (size ++ (credId ++ key))) := by
        rw [← hrest, List.take_append_drop]
      have h37 : (buf.take 37).length = 37 := by
        rw [List.length_take]
        omega
      have hsize : (buf.drop 53).take 2 = size := by
        rw [hbuf, ← List.append_assoc]
        apply part_of_append
        · rw [List.length_append, h37, h16]
        · exact h2
      have hcred : (buf.drop 55).take credId.length = credId := by
        rw [hbuf, ← List.append_assoc, ← List.append_assoc]
        apply part_of_append
        · rw [List.length_append, List.length_append, h37, h16, h2]
        · rfl
      have hkey : buf.drop (55 + credId.length) = key := by
        rw [hbuf, ← List.append_assoc, ← List.append_assoc, ← List.append_assoc]
        apply List.drop_left'
        simp only [List.length_append, h37, h16, h2]
      have htotal : buf.length = 55 + credId.length + key.length := by
        rw [hbuf]
        simp only [List.length_append, h37, h16, h2]
        omega
      rw [List.take_left' h16]
      rw [hsize, ← hlen, hcred]
      have hroom : 55 + credId.length ≤ buf.length := by omega
      refine ⟨h55, ⟨⟨hmin, hmax⟩, hroom⟩, (cose, some buf.length), ?_, rfl⟩
      apply (cborDecode_takes_iff hroom le_rfl).mpr
      rw [hkey, List.drop_of_length_le le_rfl]
      exact hitem

/-- **What is accepted** is consumed exactly. -/
theorem parseAuthData_eq_ok {buf : Bytes} {a : AuthData} :
    parseAuthData buf = .ok a ↔ AuthBytes buf a := by
  unfold parseAuthData
  simp only [bind_eq_ok, failUnless_eq_ok, exists_const, decide_eq_true_eq, Bool.and_eq_true]
  constructor
  · rintro ⟨⟨h37, h1024⟩, h⟩
    have hbuf : buf = buf.take 32 ++ ((buf.drop 32).take 1 ++ ((buf.drop 33).take 4 ++
        buf.drop 37)) := by
      rw [← drop_eq_parts buf 33, ← drop_eq_parts buf 32, List.take_append_drop]
    have h32 : (buf.take 32).length = 32 := by
      rw [List.length_take]
      omega
    have h1 : ((buf.drop 32).take 1).length = 1 := by
      rw [List.length_take, List.length_drop]
      omega
    have h4 : ((buf.drop 33).take 4).length = 4 := by
      rw [List.length_take, List.length_drop]
      omega
    split at h
    · rename_i hflag
      simp only [bind_eq_ok, failUnless_eq_ok, exists_const, decide_eq_true_eq, Bool.and_eq_true,
        pure_eq_ok, Bool.not_eq_true'] at h
      obtain ⟨⟨att, pos⟩, hatt, _, rfl, ⟨hed, hpos⟩, rfl⟩ := h
      simp only at hpos
      subst hpos
      obtain ⟨-, hbytes⟩ := parseAttested_eq_ok.1 hatt
      exact ⟨⟨_, _, _, hbuf, h32, h1, rfl, h4, rfl, hbytes⟩, h1024, hflag, hed⟩
    · rename_i hflag
      simp only [bind_eq_ok, failUnless_eq_ok, exists_const, decide_eq_true_eq, Bool.and_eq_true,
        pure_eq_ok, Bool.not_eq_true'] at h
      obtain ⟨_, rfl, ⟨hed, hpos⟩, rfl⟩ := h
      have hnil : buf.drop 37 = [] := by
        rw [Option.some.inj hpos]
        exact List.drop_of_length_le le_rfl
      refine ⟨⟨_, _, _, hbuf, h32, h1, rfl, h4, rfl, ?_⟩, h1024, by simpa using hflag, hed⟩
      rw [hnil]
      exact .none
  · rintro ⟨⟨flags, counter, attested, hbuf, h32, h1, hflags, h4, hcounter, hbytes⟩, h1024, hat,
      hed⟩
    obtain ⟨rpIdHash, aflags, acounter, att⟩ := a
    simp only at hbuf h32 hflags hcounter hbytes hat hed
    have htake : buf.take 32 = rpIdHash := by
      rw [hbuf]
      exact List.take_left' h32
    have hfl : (buf.drop 32).take 1 = flags := by
      rw [hbuf]
      exact part_of_append _ _ _ h32 h1
    have hct : (buf.drop 33).take 4 = counter := by
      rw [hbuf, ← List.append_assoc]
      apply part_of_append
      · rw [List.length_append, h32, h1]
      · exact h4
    have hrest : buf.drop 37 = attested := by
      rw [hbuf, ← List.append_assoc, ← List.append_assoc]
      apply List.drop_left'
      simp only [List.length_append, h32, h1, h4]
    have hlen : buf.length = 37 + attested.length := by
      rw [hbuf]
      simp only [List.length_append, h32, h1, h4]
      omega
    refine ⟨⟨by omega, h1024⟩, ?_⟩
    rw [htake, hfl, hct, ← hflags, ← hcounter]
    cases att with
    | none =>
      have hnil : attested = [] := by
        cases hbytes
        rfl
      rw [if_neg (by rw [hat]; simp)]
      simp only [bind_eq_ok, failUnless_eq_ok, exists_const, decide_eq_true_eq, Bool.and_eq_true,
        pure_eq_ok, Bool.not_eq_true', exists_eq_left']
      refine ⟨⟨hed, ?_⟩, trivial⟩
      rw [hlen, hnil]
      rfl
    | some att =>
      have hmin : 55 ≤ buf.length := by
        rw [hlen]
        cases hbytes with
        | some h16 h2 hcred hmin _ _ =>
          simp only [List.length_append, h16, h2]
          omega
      rw [if_pos (by rw [hat]; rfl)]
      rw [← hrest] at hbytes
      have hatt := parseAttested_eq_ok.2 ⟨hmin, hbytes⟩
      simp only [bind_eq_ok, failUnless_eq_ok, exists_const, decide_eq_true_eq, Bool.and_eq_true,
        pure_eq_ok, Bool.not_eq_true', hatt, Except.ok.injEq, exists_eq_left', hed, and_self]

/-! ## The checks of the signer -/

theorem total_checkFlags (C : Crypto) (a : AuthData) (rpId : Text) :
    Total (checkFlags C a rpId) := by
  unfold checkFlags
  simp only [total_bind, total_failUnless, implies_true, and_self]

theorem total_coseP256 (v : Cbor) : Total (coseP256 v) := by
  cases v with
  | map entries =>
    unfold coseP256
    refine total_bind.2 ⟨total_failUnless _ _, ?_⟩
    intro _ _
    split
    · exact total_bind.2 ⟨total_failUnless _ _, fun _ _ => total_pure _⟩
    · exact total_failure _
  | _ => exact total_failure _

theorem total_pointOfSpki (spki : Bytes) : Total (pointOfSpki spki) :=
  total_bind.2 ⟨total_failUnless _ _, fun _ _ => total_pure _⟩

/-- The bytes of an assertion that the signer can take. -/
structure AssertionSafe (C : Crypto) (ctx : AssertionContext) (authData cdj sig : Bytes) :
    Prop where
  client : cdj.length ≤ 2048 → ¬ IsNull cdj
  key : checkClientData cdj ⟨"webauthn.get", ctx.challenge, ctx.origin⟩ = .ok () →
    ¬ CutInKey authData
  crypto : checkClientData cdj ⟨"webauthn.get", ctx.challenge, ctx.origin⟩ = .ok () →
    ∀ a, AuthBytes authData a → checkFlags C a ctx.rpId = .ok () →
    ∀ spki, b64uDecode ctx.spki 200 = .ok spki →
      C.verify spki (authData ++ C.sha256.digest cdj) sig ≠ .error ()

theorem verifyAssertion_total_iff (C : Crypto) (input : AssertionInput) (ctx : AssertionContext) :
    Total (verifyAssertion C input ctx) ↔
      ∀ authData cdj sig, b64uDecode input.authenticatorData 1400 = .ok authData →
        b64uDecode input.clientDataJSON 2800 = .ok cdj → b64uDecode input.signature 200 = .ok sig →
        AssertionSafe C ctx authData cdj sig := by
  have hverify : ∀ spki data sig,
      Total ((C.verify spki data sig).mapError fun _ => WebAuthnThrown.crypto) ↔
        C.verify spki data sig ≠ .error () := by
    intro spki data sig
    cases C.verify spki data sig with
    | ok b => exact ⟨fun _ => nofun, fun _ => total_ok b⟩
    | error u =>
      constructor
      · intro h
        obtain ⟨code, hcode⟩ := h _ rfl
        cases hcode
      · intro h
        exact absurd rfl h
  unfold verifyAssertion
  simp only [total_bind, total_b64uDecode, total_failUnless, total_checkFlags, total_pure,
    true_and, implies_true, and_true, hverify, checkClientData_total_iff, parseAuthData_total_iff,
    parseAuthData_eq_ok]
  constructor
  · intro h authData cdj sig ha hc hs
    obtain ⟨hclient, hrest⟩ := h authData ha cdj hc sig hs
    exact ⟨hclient, fun hok => (hrest () hok).1,
      fun hok a hauth hflags spki hspki => (hrest () hok).2 a hauth () hflags spki hspki⟩
  · intro h authData ha cdj hc sig hs
    obtain ⟨hclient, hkey, hcrypto⟩ := h authData cdj sig ha hc hs
    exact ⟨hclient, fun _ hok => ⟨hkey hok,
      fun a hauth _ hflags spki hspki => hcrypto hok a hauth hflags spki hspki⟩⟩

/-- The bytes of an enrolment that the signer can take, once the secret has vouched for them. -/
structure EnrolmentSafe (C : Crypto) (input : EnrolInput) (ctx : EnrolContext)
    (authData cdj : Bytes) : Prop where
  client : cdj.length ≤ 2048 → ¬ IsNull cdj
  key : checkClientData cdj ⟨"webauthn.create", enrolChallenge C ctx.secret input.enrolId,
    ctx.origin⟩ = .ok () → ¬ CutInKey authData

theorem verifyEnrolment_total_iff (C : Crypto) (input : EnrolInput) (ctx : EnrolContext) :
    Total (verifyEnrolment C input ctx) ↔
      ∀ credId spki authData cdj mac, b64uDecode input.credId 1400 = .ok credId →
        b64uDecode input.spki 200 = .ok spki →
        b64uDecode input.authenticatorData 1400 = .ok authData →
        b64uDecode input.clientDataJSON 2800 = .ok cdj → b64uDecode input.mac 64 = .ok mac →
        mac = enrolMac C ctx.secret input.enrolId input.credId cdj authData spki →
        EnrolmentSafe C input ctx authData cdj := by
  unfold verifyEnrolment
  simp only [total_bind, total_b64uDecode, total_failUnless, total_checkFlags, total_pure,
    total_orRefuse, total_coseP256, total_pointOfSpki, true_and, implies_true, and_true,
    checkClientData_total_iff, parseAuthData_total_iff, failUnless_eq_ok, decide_eq_true_eq,
    forall_const]
  constructor
  · intro h credId spki authData cdj mac h1 h2 h3 h4 h5 hmac
    obtain ⟨hclient, hrest⟩ := h credId h1 spki h2 authData h3 cdj h4 mac h5 hmac
    exact ⟨hclient, fun hok => hrest () hok⟩
  · intro h credId h1 spki h2 authData h3 cdj h4 mac h5 hmac
    obtain ⟨hclient, hkey⟩ := h credId spki authData cdj mac h1 h2 h3 h4 h5 hmac
    exact ⟨hclient, fun _ hok => hkey hok⟩

/-! ## The verifier of documents -/

namespace Document

variable {KeyObject : Type}

/-- The client data says what is expected. -/
structure ClientPasses (input : AssertionInput) (client : Value) : Prop where
  type : (client.get (js "type")).same (.text "webauthn.get") = true
  challenge : (client.get (js "challenge")).same (.str input.expectedChallenge) = true
  origin : (client.get (js "origin")).same (.str input.expectedOrigin) = true
  crossOrigin : (client.get (js "crossOrigin")).same (.bool true) = false

/-- The authenticator data is of the relying party, with the flags that are asked for. -/
structure AuthPasses (C : Crypto KeyObject) (input : AssertionInput) : Prop where
  size : 37 ≤ input.authenticatorData.length
  rpId : input.authenticatorData.take 32 = C.sha256.digest (utf8 input.rpId)
  up : (flagsOf (byteOrZero input.authenticatorData 32)).up = true
  uv : input.requireUserVerification.getD true = true →
    (flagsOf (byteOrZero input.authenticatorData 32)).uv = true

/-- An assertion that the verifier can take. -/
structure Safe (C : Crypto KeyObject) (input : AssertionInput) : Prop where
  client : ¬ IsNull input.clientDataJSON
  crypto : ∀ client, parseJson (utf8Decode input.clientDataJSON) = .ok client →
    ClientPasses input client → AuthPasses C input →
    ∀ key, coseToKey C input.publicKeyCose = some key →
      verifySignature C input key ≠ .error .crypto

/-- A verdict comes back. -/
def Returns {α : Type} (x : Except WebAuthnThrown α) : Prop := ∃ a, x = .ok a

theorem verifySignature_error {C : Crypto KeyObject} {input : AssertionInput}
    {key : KeyObject × Alg} {e : WebAuthnThrown} (h : verifySignature C input key = .error e) :
    e = .crypto := by
  unfold verifySignature at h
  simp only at h
  generalize C.verify _ _ _ _ = r at h
  cases r with
  | ok b => cases h
  | error u => exact (Except.error.inj h).symm

theorem verifyAuthenticator_returns_iff (C : Crypto KeyObject) (input : AssertionInput) :
    Returns (verifyAuthenticator C input) ↔ (AuthPasses C input →
      ∀ key, coseToKey C input.publicKeyCose = some key →
        verifySignature C input key ≠ .error .crypto) := by
  have hreturn : ∀ r : AssertionCheck, Returns (pure r : Except WebAuthnThrown AssertionCheck) :=
    fun r => ⟨r, rfl⟩
  unfold verifyAuthenticator
  simp only
  split
  · rename_i hsize
    refine iff_of_true (hreturn _) fun hpass => ?_
    have := hpass.size
    omega
  · rename_i hsize
    split
    · rename_i hrp
      exact iff_of_true (hreturn _) fun hpass => absurd hpass.rpId hrp
    · rename_i hrp
      split
      · rename_i hup
        refine iff_of_true (hreturn _) fun hpass => ?_
        rw [hpass.up] at hup
        cases hup
      · rename_i hup
        split
        · rename_i huv
          refine iff_of_true (hreturn _) fun hpass => ?_
          rw [Bool.and_eq_true] at huv
          rw [hpass.uv huv.1] at huv
          cases huv.2
        · rename_i huv
          have hpass : AuthPasses C input := by
            refine ⟨by omega, not_not.mp hrp, by simpa using hup, ?_⟩
            intro hreq
            simpa [hreq] using huv
          cases hkey : coseToKey C input.publicKeyCose with
          | none => exact iff_of_true (hreturn _) fun _ => nofun
          | some key =>
            simp only
            cases hver : verifySignature C input key with
            | ok b =>
              refine iff_of_true ?_ fun _ k hk => ?_
              · cases b <;> exact hreturn _
              · rw [← Option.some.inj hk, hver]
                nofun
            | error e =>
              rw [verifySignature_error hver] at hver ⊢
              refine iff_of_false ?_ fun h => h hpass key rfl hver
              rintro ⟨a, ha⟩
              cases ha

theorem verifyAssertion_returns_iff (C : Crypto KeyObject) (input : AssertionInput) :
    Returns (verifyAssertion C input) ↔ Safe C input := by
  unfold verifyAssertion
  cases hp : parseJson (utf8Decode input.clientDataJSON) with
  | error e =>
    refine iff_of_true ⟨_, rfl⟩ ⟨?_, ?_⟩
    · rw [IsNull, hp]
      nofun
    · rw [hp]
      nofun
  | ok client =>
    by_cases hnull : client = .null
    · subst hnull
      refine iff_of_false ?_ fun h => h.client hp
      rintro ⟨a, ha⟩
      cases ha
    · have hprop := clientProp_of_object hnull (parseJson_ne_undefined hp)
      have hnot : ¬ IsNull input.clientDataJSON := by
        rw [IsNull, hp]
        exact fun h => hnull (Except.ok.inj h)
      have hreturn : ∀ r : AssertionCheck,
          Returns (pure r : Except WebAuthnThrown AssertionCheck) := fun r => ⟨r, rfl⟩
      -- a check of the client data that does not pass gives a reason
      have hfails : ¬ ClientPasses input client → Safe C input := by
        intro hno
        refine ⟨hnot, ?_⟩
        intro client' hc hpass
        rw [hp] at hc
        rw [← Except.ok.inj hc] at hpass
        exact absurd hpass hno
      simp only [hprop]
      change Returns (if (!(client.get (js "type")).same (.text "webauthn.get")) = true then _
        else if (!(client.get (js "challenge")).same (.str input.expectedChallenge)) = true then _
        else if (!(client.get (js "origin")).same (.str input.expectedOrigin) ||
          (client.get (js "crossOrigin")).same (.bool true)) = true then _ else _) ↔ _
      split
      · rename_i h
        refine iff_of_true (hreturn _) (hfails fun hpass => ?_)
        rw [hpass.type] at h
        cases h
      · rename_i htype
        split
        · rename_i h
          refine iff_of_true (hreturn _) (hfails fun hpass => ?_)
          rw [hpass.challenge] at h
          cases h
        · rename_i hchallenge
          split
          · rename_i h
            refine iff_of_true (hreturn _) (hfails fun hpass => ?_)
            rw [hpass.origin, hpass.crossOrigin] at h
            cases h
          · rename_i horigin
            rw [Bool.or_eq_true, not_or] at horigin
            have hpass : ClientPasses input client := by
              refine ⟨by simpa using htype, by simpa using hchallenge, ?_, ?_⟩
              · simpa using horigin.1
              · simpa using horigin.2
            rw [verifyAuthenticator_returns_iff]
            constructor
            · intro h
              exact ⟨hnot, fun _ _ _ => h⟩
            · intro h
              exact h.crypto client hp hpass

end Document

/-! ## All parsers -/

/-- **Total on any bytes**, exactly where the input is safe. The signer gives a result
or a failure, unless null stands for the client data, the key of a credential is cut
in a length, or node throws; the reader stays inside its buffer unless an item is cut
in its head; what is accepted is consumed exactly; and the verifier of documents
returns, unless the client data is null or node throws. -/
theorem parsers_are_total_iff {KeyObject : Type} :
    (∀ C input ctx, Total (verifyAssertion C input ctx) ↔
      ∀ authData cdj sig, b64uDecode input.authenticatorData 1400 = .ok authData →
        b64uDecode input.clientDataJSON 2800 = .ok cdj → b64uDecode input.signature 200 = .ok sig →
        AssertionSafe C ctx authData cdj sig) ∧
    (∀ C input ctx, Total (verifyEnrolment C input ctx) ↔
      ∀ credId spki authData cdj mac, b64uDecode input.credId 1400 = .ok credId →
        b64uDecode input.spki 200 = .ok spki →
        b64uDecode input.authenticatorData 1400 = .ok authData →
        b64uDecode input.clientDataJSON 2800 = .ok cdj → b64uDecode input.mac 64 = .ok mac →
        mac = enrolMac C ctx.secret input.enrolId input.credId cdj authData spki →
        EnrolmentSafe C input ctx authData cdj) ∧
    (∀ (C : Document.Crypto KeyObject) input,
      (∃ r, Document.verifyAssertion C input = .ok r) ↔ Document.Safe C input) ∧
    (∀ buf levels pos, pos ≤ buf.length → ((cborDecode buf levels (some pos)).Inside buf ↔
      ∀ kind, ¬ CborCut kind levels (buf.drop pos))) ∧
    ∀ buf a, parseAuthData buf = .ok a ↔ AuthBytes buf a :=
  ⟨verifyAssertion_total_iff, verifyEnrolment_total_iff, Document.verifyAssertion_returns_iff,
    fun _ _ _ hpos => cborDecode_inside_iff hpos, fun _ _ => parseAuthData_eq_ok⟩

/-- The JSON text null as client data makes an error of the language, in the signer and
in the verifier of documents; and a head that ends the buffer is read beyond it. -/
theorem null_client_data_is_no_failure :
    (∃ C input ctx, verifyAssertion C input ctx = .error (.exn .typeError)) ∧
    ¬ (∀ C input ctx, Total (verifyAssertion C input ctx)) ∧
    ¬ (∀ (C : Document.Crypto Unit) input, ∃ r, Document.verifyAssertion C input = .ok r) ∧
    ¬ (cborDecode [0x18] cborLevels (some 0)).Inside [0x18] := by
  have hsigner : verifyAssertion ⟨zeroHash, fun _ _ => [], fun _ _ _ => .ok true⟩
      ⟨[], js "bnVsbA", []⟩ ⟨[], [], [], [], 0⟩ = .error (.exn .typeError) := by decide
  refine ⟨⟨_, _, _, hsigner⟩, ?_, ?_, ?_⟩
  · intro h
    obtain ⟨code, hcode⟩ := h _ _ _ _ hsigner
    cases hcode
  · intro h
    obtain ⟨r, hr⟩ := h ⟨zeroHash, fun _ => some (), fun _ _ _ _ => .ok true⟩
      ⟨[], [], utf8 (js "null"), [], [], [], [], none⟩
    have hnull : IsNull (utf8 (js "null")) := rfl
    exact ((Document.verifyAssertion_returns_iff _ _).mp ⟨r, hr⟩).client hnull
  · intro h
    have hcut : CborCut .byte cborLevels (([0x18] : Bytes).drop 0) := .inl rfl
    exact (cborDecode_inside_iff (Nat.zero_le _)).mp h .byte hcut

end Klick
