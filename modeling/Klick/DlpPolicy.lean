-- The rules of an organisation against the loss of data (`lib/dlp/policy.ts`), what they make
-- of the findings in a file, and which change of them counts as relaxed
-- (`dlpRelaxed` of `lib/security-changes/rules.ts`).
import Klick.Binary64
import Klick.Egress

open Js

namespace Klick.Dlp

/-! ## Findings and rules -/

inductive Classification
  | «public» | internal | confidential | secret
deriving DecidableEq, Repr

inductive RuleAction
  | allow | raise | warn | block
deriving DecidableEq, Repr

inductive Category
  | secret | payment | bank | tax | pii | info
deriving DecidableEq, Repr

inductive Detector
  | privateKey | awsAccessKey | stripeSecret | githubToken | openaiKey | anthropicKey
  | slackToken | sendgridKey | supabaseServiceRole | googleApiKey | cardNumber | iban | deTaxId
  | email | phone
deriving DecidableEq, Repr

structure Finding where
  detector : Detector
  category : Category
  count : ℕ
deriving DecidableEq, Repr

structure DlpPolicy where
  secret : RuleAction
  payment : RuleAction
  bank : RuleAction
  tax : RuleAction
  pii : RuleAction
  piiThreshold : ℤ
  egressLimit : ℤ
  egressWindowMinutes : ℤ
deriving DecidableEq, Repr

/-- `dlpPolicySchema`: secrets are blocked or warned of, and the numbers have their bounds. -/
structure DlpPolicy.Valid (p : DlpPolicy) : Prop where
  secret : p.secret = .block ∨ p.secret = .warn
  piiThreshold : 5 ≤ p.piiThreshold ∧ p.piiThreshold ≤ 10000
  egressLimit : 5 ≤ p.egressLimit ∧ p.egressLimit ≤ 1000
  egressWindowMinutes : 1 ≤ p.egressWindowMinutes ∧ p.egressWindowMinutes ≤ 240

/-- `policy[category]`; a finding for information has no rule. -/
def DlpPolicy.rule (p : DlpPolicy) : Category → RuleAction
  | .secret => p.secret
  | .payment => p.payment
  | .bank => p.bank
  | .tax => p.tax
  | .pii => p.pii
  | .info => .allow

/-- `RAISE_TO` -/
def raiseTo : Category → Classification
  | .secret => .secret
  | .payment => .secret
  | .bank => .confidential
  | .tax => .confidential
  | .pii => .confidential
  | .info => .internal

def Classification.rank : Classification → ℕ
  | .public => 0
  | .internal => 1
  | .confidential => 2
  | .secret => 3

/-- `ACTION_RANK` -/
def RuleAction.rank : RuleAction → ℕ
  | .allow => 0
  | .raise => 1
  | .warn => 2
  | .block => 3

/-! ## The decision on a file -/

structure DlpDecision where
  action : RuleAction
  classification : Classification
  raised : Bool
  reasons : List Detector
deriving DecidableEq, Repr

/-- What the findings so far have led to. -/
structure Weighing where
  action : RuleAction
  classification : Classification
  reasons : List Detector

/-- One pass of the loop of `evaluateDlp`. -/
def weigh (policy : DlpPolicy) (w : Weighing) (f : Finding) : Weighing :=
  if f.category = .info then w
  else if f.category = .pii ∧ f.count < policy.piiThreshold then w
  else
    let rule := policy.rule f.category
    if rule = .allow then w
    else
      { action := if w.action.rank < rule.rank then rule else w.action
        classification :=
          if w.classification.rank < (raiseTo f.category).rank then raiseTo f.category
          else w.classification
        reasons := w.reasons ++ [f.detector] }

def evaluateDlp (findings : List Finding) (policy : DlpPolicy) (declared : Classification) :
    DlpDecision :=
  let w := findings.foldl (weigh policy) ⟨.allow, declared, []⟩
  ⟨w.action, w.classification, declared.rank < w.classification.rank, w.reasons⟩

/-! ## Relaxed -/

/-- `DLP_RULES` -/
def dlpRules : List Category := [.secret, .payment, .bank, .tax, .pii]

/-- What a change relaxed. -/
inductive Relaxed
  | rule (category : Category)
  | piiThreshold
  | egress
deriving DecidableEq, Repr

/-- Downloads a minute, a quotient of two numbers of JavaScript. -/
def DlpPolicy.rate (p : DlpPolicy) : ℚ := fl ((p.egressLimit : ℚ) / p.egressWindowMinutes)

def dlpRelaxed (before after : DlpPolicy) : List Relaxed :=
  (dlpRules.filter fun k => (after.rule k).rank < (before.rule k).rank).map .rule ++
    (if before.piiThreshold < after.piiThreshold then [.piiThreshold] else []) ++
    (if before.egressLimit < after.egressLimit ∨ before.rate < after.rate then [.egress] else [])

/-! ## The watch over downloads -/

/-- `egressGuard`, as far as it decides: the person in the organisation is the key. -/
def egressGuard (m : Egress.EgressMonitor Text) (policy : DlpPolicy) (orgId userId : Text)
    (now : ℤ) : Egress.EgressDecision × Egress.EgressMonitor Text :=
  m.record (orgId ++ ch ':' :: userId) policy.egressLimit (policy.egressWindowMinutes * 60000) now

end Klick.Dlp
