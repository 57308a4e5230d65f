/-
# The configuration parser: the next item of a string (`config/config.c`)

A configuration string is read by a machine with one table of actions for each place it can be in:
between tokens, in a bare word, in a quoted string, in a character of several bytes and after a
backslash.  Brackets are counted and not matched.  An item is a key and an optional value, and only
what stands at the nesting level of the first item is an item; what stands deeper is passed over.

A pointer into the string is the text from there to the end of the string that is parsed, so
that the distance of two pointers is the difference of the lengths.
-/
import Mathlib

namespace WiredTiger

/-- The type of a `WT_CONFIG_ITEM`. -/
inductive ItemType
  | string
  | bool
  | id
  | num
  | struct
  deriving DecidableEq, Repr

/-- A `WT_CONFIG_ITEM`. -/
structure ConfigItem where
  /-- The text from the first character of the item. -/
  str : List Char
  len : ℕ
  val : ℤ
  type : ItemType
  deriving DecidableEq, Repr

/-- The characters of an item. -/
def ConfigItem.text (item : ConfigItem) : List Char := item.str.take item.len

/-- What `__config_next` fails with: `WT_NOTFOUND`, or `EINVAL` with a message. -/
inductive ConfigError
  | notFound
  /-- `"Unexpected character"` -/
  | unexpectedCharacter
  /-- `"Unbalanced brackets"` -/
  | unbalancedBrackets
  /-- `"New value starts without a separator"` -/
  | newValueWithoutSeparator
  /-- `"Value already complete"` -/
  | valueAlreadyComplete
  deriving DecidableEq, Repr

/-! ### The tables -/

/-- The table in use (`conf->go`). -/
inductive GoTable
  | gostruct
  | gobare
  | gostring
  | goutf8Continue
  | goesc
  deriving DecidableEq, Repr

/-- A `CONFIG_ACTION`. -/
inductive ConfigAction
  | loop
  | bad
  | down
  | up
  | value
  | next
  | qdown
  | qup
  | esc
  | unesc
  | bare
  | numbare
  | unbare
  /-- `A_UTF8_2`, `A_UTF8_3` and `A_UTF8_4`, by the number of bytes that follow. -/
  | utf8 (remain : ℕ)
  | utfContinue
  deriving DecidableEq, Repr

/-- What holds of every character of a text is decided along the text. -/
instance (priority := 2000) decidableForallChars {p : Char → Prop} [DecidablePred p]
    (t : List Char) : Decidable (∀ c ∈ t, p c) :=
  List.decidableBAll p t

/-- `gostruct`; the table also has `.` among the characters a bare word starts with. -/
def gostruct (c : Char) : ConfigAction :=
  if c = '\t' ∨ c = ' ' ∨ c = '\r' ∨ c = '\n' then .loop
  else if c = '"' then .qup
  else if c = ':' ∨ c = '=' then .value
  else if c = ',' then .next
  else if c = '(' ∨ c = '[' ∨ c = '{' then .up
  else if c = ')' ∨ c = ']' ∨ c = '}' then .down
  else if c = '-' ∨ c.isDigit then .numbare
  else if c = '_' ∨ c = '/' ∨ c = '.' ∨ c.isAlpha then .bare
  else .bad

/-- `gobare`. -/
def gobare (c : Char) : ConfigAction :=
  if c = '\t' ∨ c = ' ' ∨ c = '\r' ∨ c = '\n' ∨ c = ':' ∨ c = '=' ∨ c = ',' ∨ c = ')' ∨ c = ']' ∨
      c = '}' then .unbare
  else if 32 ≤ c.toNat ∧ c.toNat ≤ 126 then .loop
  else .bad

/-- `gostring`. -/
def gostring (c : Char) : ConfigAction :=
  if c = '\\' then .esc
  else if c = '"' then .qdown
  else if 32 ≤ c.toNat ∧ c.toNat ≤ 126 then .loop
  else if 192 ≤ c.toNat ∧ c.toNat ≤ 223 then .utf8 1
  else if 224 ≤ c.toNat ∧ c.toNat ≤ 239 then .utf8 2
  else if 240 ≤ c.toNat ∧ c.toNat ≤ 247 then .utf8 3
  else .bad

/-- `goutf8_continue`. -/
def goutf8Continue (c : Char) : ConfigAction :=
  if 128 ≤ c.toNat ∧ c.toNat ≤ 191 then .utfContinue else .bad

/-- `goesc`. -/
def goesc (c : Char) : ConfigAction :=
  if c = '"' ∨ c = '\\' ∨ c = '/' ∨ c = 'b' ∨ c = 'f' ∨ c = 'n' ∨ c = 'r' ∨ c = 't' ∨ c = 'u' then
    .unesc
  else .bad

/-- The action of a table at a character. -/
def GoTable.action : GoTable → Char → ConfigAction
  | .gostruct => WiredTiger.gostruct
  | .gobare => WiredTiger.gobare
  | .gostring => WiredTiger.gostring
  | .goutf8Continue => WiredTiger.goutf8Continue
  | .goesc => WiredTiger.goesc

/-! ### The machine -/

/-- A `WT_CONFIG`. -/
structure Config where
  cur : List Char
  depth : ℤ
  top : ℤ
  go : GoTable
  deriving DecidableEq, Repr

/-- `__wt_config_initn`; the table is set to `gostruct` when the first item is asked for. -/
def configInit (str : List Char) : Config := ⟨str, 0, -1, .gostruct⟩

/-- `__wt_config_subinit`. -/
def configSubinit (item : ConfigItem) : Config := configInit item.text

/-- `__config_next` at work: the fields of the handle apart from the cursor, and the local
variables. -/
structure ConfigScan where
  depth : ℤ
  top : ℤ
  go : GoTable
  utf8Remain : ℕ
  key : ConfigItem
  value : ConfigItem
  /-- `out` points to the value, not to the key. -/
  onValue : Bool
  deriving DecidableEq, Repr

namespace ConfigScan

/-- The item that `out` points to. -/
def out (s : ConfigScan) : ConfigItem := if s.onValue then s.value else s.key

def setOut (s : ConfigScan) (item : ConfigItem) : ConfigScan :=
  if s.onValue then { s with value := item } else { s with key := item }

/-- `PUSH`: an item starts at `here`. -/
def push (here : List Char) (t : ItemType) (s : ConfigScan) : Except ConfigError ConfigScan :=
  let s := if s.top = -1 then { s with top := s.depth } else s
  if s.depth = s.top then
    if 0 < s.out.len then .error .newValueWithoutSeparator
    else .ok (s.setOut { s.out with type := t, str := here })
  else .ok s

/-- `CAP`: an item ends in front of `here`. -/
def cap (here : List Char) (s : ConfigScan) : ConfigScan :=
  if s.depth = s.top then s.setOut { s.out with len := s.out.str.length - here.length } else s

/-- What the machine does after an action. -/
inductive Outcome
  /-- Go on with the next character. -/
  | more (s : ConfigScan)
  /-- Return the item; the character is consumed. -/
  | done (s : ConfigScan)
  | fail (e : ConfigError)
  deriving DecidableEq, Repr

def Outcome.ofPush (go : GoTable) : Except ConfigError ConfigScan → Outcome
  | .ok s => .more { s with go }
  | .error e => .fail e

/-- One action at the character `c`, with `rest` behind it; `A_UNBARE` is in `step`. -/
def act (c : Char) (rest : List Char) (s : ConfigScan) : ConfigAction → Outcome
  | .loop => .more s
  | .bad => .fail .unexpectedCharacter
  | .down =>
    if s.top = -1 then .fail .unbalancedBrackets
    else .more (cap rest { s with depth := s.depth - 1 })
  | .up =>
    let s := if s.top = -1 then { s with top := 1 } else s
    match push (c :: rest) .struct s with
    | .ok s => .more { s with depth := s.depth + 1 }
    | .error e => .fail e
  | .value =>
    if s.depth = s.top then
      if s.onValue ∧ c ≠ ':' then .fail .valueAlreadyComplete
      else .more { s with onValue := true }
    else .more s
  | .next => if s.depth = s.top ∧ 0 < s.key.len then .done s else .more s
  | .qdown => .more { cap (c :: rest) s with go := .gostruct }
  | .qup => .ofPush .gostring (push rest .string s)
  | .esc => .more { s with go := .goesc }
  | .unesc => .more { s with go := .gostring }
  | .bare => .ofPush .gobare (push (c :: rest) .id s)
  | .numbare => .ofPush .gobare (push (c :: rest) .num s)
  | .unbare => .fail .unexpectedCharacter
  | .utf8 remain => .more { s with go := .goutf8Continue, utf8Remain := remain }
  | .utfContinue =>
    if s.utf8Remain - 1 = 0 then
      .more { s with go := .gostring, utf8Remain := s.utf8Remain - 1 }
    else .more { s with utf8Remain := s.utf8Remain - 1 }

/-- A bare word ends in front of `here`. -/
def unbare (here : List Char) (s : ConfigScan) : ConfigScan :=
  { cap here s with go := .gostruct }

/-- One turn of the loop.  The character that ends a bare word is looked at again, with the table
`gostruct`, which never ends a bare word. -/
def step (c : Char) (rest : List Char) (s : ConfigScan) : Outcome :=
  if s.go.action c = .unbare then
    act c rest (unbare (c :: rest) s) (WiredTiger.gostruct c)
  else act c rest s (s.go.action c)

/-- What the end of the string leaves. -/
def finish (s : ConfigScan) : Except ConfigError (List Char × ConfigScan) :=
  let s := if s.go = .gobare then unbare [] s else s
  if s.depth ≤ s.top ∧ 0 < s.key.len then .ok ([], s)
  else if s.depth = 0 then .error .notFound
  else .error .unbalancedBrackets

/-- The loop. -/
def run : List Char → ConfigScan → Except ConfigError (List Char × ConfigScan)
  | [], s => finish s
  | c :: rest, s =>
    match step c rest s with
    | .more s => run rest s
    | .done s => .ok (rest, s)
    | .fail e => .error e

end ConfigScan

/-- Keys with no value default to true. -/
def trueValue : ConfigItem := ⟨[], 0, 1, .bool⟩

/-- `__config_next`: the next key and value, with the handle behind them.  The key keeps the fields
of `key` that are not set. -/
def configNext (conf : Config) (key : ConfigItem) :
    Except ConfigError (Config × ConfigItem × ConfigItem) :=
  (ConfigScan.run conf.cur
      ⟨conf.depth, conf.top, conf.go, 0, { key with len := 0 }, trueValue, false⟩).map
    fun r => (⟨r.1, r.2.depth, r.2.top, r.2.go⟩, r.2.key, r.2.value)

/-- What the caller's key holds before the first call. -/
def noItem : ConfigItem := ⟨[], 0, 0, .string⟩

/-- The items that a loop around `__config_next` gets, and what ends the loop.  Every item takes
at least one character, so that `fuel` is never used up if it exceeds the characters left. -/
def configItems (fuel : ℕ) (conf : Config) (key : ConfigItem) :
    List (ConfigItem × ConfigItem) × ConfigError :=
  match fuel with
  | 0 => ([], .notFound)
  | fuel + 1 =>
    match configNext conf key with
    | .error e => ([], e)
    | .ok (conf, k, v) =>
      let r := configItems fuel conf k
      ((k, v) :: r.1, r.2)

/-- All items of a string. -/
def configAll (conf : Config) : List (ConfigItem × ConfigItem) × ConfigError :=
  configItems (conf.cur.length + 1) conf noItem

end WiredTiger
