/-
# The lexer of the command line

The lexer has the current byte, its position and the position after it. A word is looked up among
the keywords; for `DATASET` the next word is looked at, and the two make one token if it is `TABLE`.
-/

import Mathlib

namespace RagFlow.Cli

/-- A Go string. -/
abbrev Bytes := List UInt8

inductive TokenType where
  | tokenLogin | tokenLogout | tokenRegister | tokenList | tokenServices | tokenShow | tokenCreate
  | tokenService | tokenShutdown | tokenStartup | tokenRestart | tokenUsers | tokenDrop
  | tokenUser | tokenAlter | tokenActive | tokenAdmin | tokenAdd | tokenDelete | tokenPassword
  | tokenDataset | tokenDatasets | tokenDatasetTable | tokenOf | tokenAgents | tokenRole
  | tokenRoles | tokenDescription | tokenGrant | tokenRevoke | tokenAll | tokenPermission
  | tokenTo | tokenFrom | tokenFor | tokenResources | tokenOn | tokenSet | tokenReset
  | tokenVersion | tokenVar | tokenVars | tokenConfigs | tokenEnvs | tokenKey | tokenKeys
  | tokenGenerate | tokenAvailable | tokenSupported | tokenModel | tokenModels | tokenProvider
  | tokenProviders | tokenDefault | tokenChats | tokenChat | tokenStream | tokenFiles | tokenAs
  | tokenParse | tokenImport | tokenInto | tokenWith | tokenParser | tokenPipeline | tokenSearch
  | tokenCurrent | tokenVision | tokenEmbedding | tokenRerank | tokenASR | tokenTTS | tokenOCR
  | tokenAsync | tokenSync | tokenBenchmark | tokenPing | tokenToken | tokenTokens | tokenUnset
  | tokenIndex | tokenVector | tokenSize | tokenName | tokenBalance | tokenInstance
  | tokenInstances | tokenDisable | tokenEnable | tokenUse | tokenCheck | tokenThink | tokenEffort
  | tokenVerbosity | tokenNone | tokenMinimal | tokenLow | tokenMedium | tokenHigh | tokenMax
  | tokenLS | tokenCat | tokenInsert | tokenFile | tokenMetadata | tokenTable | tokenUpdate
  | tokenRemove | tokenChunk | tokenChunks | tokenDocument | tokenTag | tokenLog | tokenLevel
  | tokenDebug | tokenInfo | tokenWarn | tokenError | tokenFatal | tokenPanic | tokenIdentifier
  | tokenQuotedString | tokenInteger | tokenFloat | tokenSemicolon | tokenComma | tokenSlash
  | tokenEOF | tokenDash | tokenIllegal
deriving DecidableEq

structure Token where
  type : TokenType
  value : Bytes
deriving DecidableEq

def byte (c : Char) : UInt8 := UInt8.ofNat c.toNat

/-- The bytes of a text of ASCII characters. -/
def bytes (s : String) : Bytes := s.toList.map byte

/-! ## Bytes -/

/-- `unicode.IsLetter` of a byte taken as a code point. -/
def isLetter (ch : UInt8) : Bool :=
  (65 ≤ ch && ch ≤ 90) || (97 ≤ ch && ch ≤ 122) || ch = 0xAA || ch = 0xB5 || ch = 0xBA ||
    (0xC0 ≤ ch && ch ≠ 0xD7 && ch ≠ 0xF7)

def isDigit (ch : UInt8) : Bool := 48 ≤ ch && ch ≤ 57

def isSpace (ch : UInt8) : Bool := ch = 32 || ch = 9 || ch = 10 || ch = 13

/-- A byte of an identifier. -/
def isIdent (ch : UInt8) : Bool :=
  isLetter ch || isDigit ch || ch = byte '_' || ch = byte '-' || ch = byte '.'

/-- `string(ch)`: the code point in UTF-8. -/
def string (ch : UInt8) : Bytes :=
  if ch < 0x80 then [ch] else [(0xC0 : UInt8) ||| (ch >>> 6), (0x80 : UInt8) ||| (ch &&& 0x3F)]

/-- `strings.ToUpper`, up to other characters than the ASCII ones: no identifier with one of them
becomes a keyword. -/
def toUpper (s : Bytes) : Bytes := s.map fun ch => if 97 ≤ ch && ch ≤ 122 then ch - 32 else ch

/-! ## The lexer -/

structure Lexer where
  input : Bytes
  pos : ℕ
  readPos : ℕ
  ch : UInt8
deriving DecidableEq

namespace Lexer

def readChar (l : Lexer) : Lexer :=
  { l with
    ch := l.input.getD l.readPos 0
    pos := l.readPos
    readPos := l.readPos + 1 }

def new (input : Bytes) : Lexer := readChar { input := input, pos := 0, readPos := 0, ch := 0 }

def peekChar (l : Lexer) : UInt8 := l.input.getD l.readPos 0

/-- `input[start:stop]`; there is no value where Go panics. -/
def slice (l : Lexer) (start stop : ℕ) : Option Bytes :=
  if start ≤ stop ∧ stop ≤ l.input.length then some ((l.input.drop start).take (stop - start))
  else none

/-- The position of the first byte from `pos` on that is not of a kind. -/
def scan (l : Lexer) (p : UInt8 → Bool) (pos : ℕ) : ℕ :=
  pos + ((l.input.drop pos).takeWhile p).length

def peekToken (l : Lexer) : Option Bytes :=
  let start := l.scan isSpace l.readPos
  l.slice start (l.scan isIdent start)

/-- `for p(l.ch) { l.readChar() }`, with enough `fuel` for every byte. -/
def readWhileFrom (p : UInt8 → Bool) : ℕ → Lexer → Lexer
  | 0, l => l
  | fuel + 1, l => if p l.ch then readWhileFrom p fuel l.readChar else l

def readWhile (p : UInt8 → Bool) (l : Lexer) : Lexer := readWhileFrom p l.input.length l

def skipWhitespace (l : Lexer) : Lexer := l.readWhile isSpace

def readMetaCommand (l : Lexer) : Option (Bytes × Lexer) :=
  let l' := l.readChar.readWhile fun ch => isLetter ch || ch = byte '?'
  (l'.slice l.pos l'.pos).map fun value => (value, l')

def readIdentifier (l : Lexer) : Option (Bytes × Lexer) :=
  let l' := l.readWhile isIdent
  (l'.slice l.pos l'.pos).map fun value => (value, l')

def readNumber (l : Lexer) : Option (Token × Lexer) :=
  let l' := l.readWhile isDigit
  if l'.ch = byte '.' ∧ isDigit l'.peekChar then
    let l' := l'.readChar.readWhile isDigit
    (l'.slice l.pos l'.pos).map fun value => (⟨.tokenFloat, value⟩, l')
  else (l'.slice l.pos l'.pos).map fun value => (⟨.tokenInteger, value⟩, l')

def readQuotedString (l : Lexer) (quote : UInt8) : Option (Bytes × Lexer) :=
  let l := l.readChar
  let l' := l.readWhile fun ch => ch ≠ quote && ch ≠ 0
  (l'.slice l.pos l'.pos).map fun str => (str, if l'.ch = quote then l'.readChar else l')

def keywords : List (String × TokenType) :=
  [("LOGIN", .tokenLogin), ("LOGOUT", .tokenLogout), ("REGISTER", .tokenRegister),
    ("LIST", .tokenList), ("SERVICES", .tokenServices), ("SHOW", .tokenShow),
    ("CREATE", .tokenCreate), ("SERVICE", .tokenService), ("SHUTDOWN", .tokenShutdown),
    ("STARTUP", .tokenStartup), ("RESTART", .tokenRestart), ("USERS", .tokenUsers),
    ("DROP", .tokenDrop), ("USER", .tokenUser), ("ALTER", .tokenAlter), ("ACTIVE", .tokenActive),
    ("ADMIN", .tokenAdmin), ("ADD", .tokenAdd), ("DELETE", .tokenDelete),
    ("PASSWORD", .tokenPassword), ("DATASETS", .tokenDatasets), ("OF", .tokenOf),
    ("AGENTS", .tokenAgents), ("ROLE", .tokenRole), ("ROLES", .tokenRoles),
    ("DESCRIPTION", .tokenDescription), ("GRANT", .tokenGrant), ("REVOKE", .tokenRevoke),
    ("ALL", .tokenAll), ("PERMISSION", .tokenPermission), ("TO", .tokenTo), ("FROM", .tokenFrom),
    ("FOR", .tokenFor), ("RESOURCES", .tokenResources), ("ON", .tokenOn), ("SET", .tokenSet),
    ("UNSET", .tokenUnset), ("RESET", .tokenReset), ("VERSION", .tokenVersion),
    ("VAR", .tokenVar), ("VARS", .tokenVars), ("CONFIGS", .tokenConfigs), ("ENVS", .tokenEnvs),
    ("KEY", .tokenKey), ("KEYS", .tokenKeys), ("GENERATE", .tokenGenerate),
    ("MODEL", .tokenModel), ("MODELS", .tokenModels), ("PROVIDER", .tokenProvider),
    ("PROVIDERS", .tokenProviders), ("DEFAULT", .tokenDefault), ("CHATS", .tokenChats),
    ("CHAT", .tokenChat), ("THINK", .tokenThink), ("EFFORT", .tokenEffort),
    ("VERBOSITY", .tokenVerbosity), ("NONE", .tokenNone), ("MINIMAL", .tokenMinimal),
    ("LOW", .tokenLow), ("MEDIUM", .tokenMedium), ("HIGH", .tokenHigh), ("MAX", .tokenMax),
    ("STREAM", .tokenStream), ("LS", .tokenLS), ("CAT", .tokenCat), ("FILES", .tokenFiles),
    ("AS", .tokenAs), ("PARSE", .tokenParse), ("IMPORT", .tokenImport), ("INTO", .tokenInto),
    ("WITH", .tokenWith), ("PARSER", .tokenParser), ("PIPELINE", .tokenPipeline),
    ("SEARCH", .tokenSearch), ("CURRENT", .tokenCurrent), ("VISION", .tokenVision),
    ("EMBEDDING", .tokenEmbedding), ("RERANK", .tokenRerank), ("ASR", .tokenASR),
    ("TTS", .tokenTTS), ("OCR", .tokenOCR), ("ASYNC", .tokenAsync), ("SYNC", .tokenSync),
    ("BENCHMARK", .tokenBenchmark), ("PING", .tokenPing), ("TOKEN", .tokenToken),
    ("TOKENS", .tokenTokens), ("INDEX", .tokenIndex), ("VECTOR", .tokenVector),
    ("SIZE", .tokenSize), ("METADATA", .tokenMetadata), ("TABLE", .tokenTable),
    ("AVAILABLE", .tokenAvailable), ("SUPPORTED", .tokenSupported), ("NAME", .tokenName),
    ("BALANCE", .tokenBalance), ("INSTANCE", .tokenInstance), ("INSTANCES", .tokenInstances),
    ("DISABLE", .tokenDisable), ("ENABLE", .tokenEnable), ("INSERT", .tokenInsert),
    ("FILE", .tokenFile), ("USE", .tokenUse), ("CHECK", .tokenCheck), ("UPDATE", .tokenUpdate),
    ("REMOVE", .tokenRemove), ("CHUNK", .tokenChunk), ("CHUNKS", .tokenChunks),
    ("DOCUMENT", .tokenDocument), ("TAGS", .tokenTag), ("LOG", .tokenLog), ("LEVEL", .tokenLevel),
    ("DEBUG", .tokenDebug), ("INFO", .tokenInfo), ("WARN", .tokenWarn), ("ERROR", .tokenError),
    ("FATAL", .tokenFatal), ("PANIC", .tokenPanic)]

/-- The type of a word in upper case. -/
def keywordType (upper : Bytes) : TokenType :=
  match keywords.find? fun k => bytes k.1 = upper with
  | some k => k.2
  | none => .tokenIdentifier

def lookupIdent (l : Lexer) (ident : Bytes) : Option (Token × Lexer) :=
  if toUpper ident = bytes "DATASET" then
    l.peekToken.map fun next =>
      if toUpper next = bytes "TABLE" then
        (⟨.tokenDatasetTable, bytes "DATASET TABLE"⟩, (l.readWhile isSpace).readWhile isIdent)
      else (⟨.tokenDataset, ident⟩, l)
  else some (⟨keywordType (toUpper ident), ident⟩, l)

/-- A token of the current byte. -/
def single (l : Lexer) (type : TokenType) : Token × Lexer := (⟨type, string l.ch⟩, l.readChar)

def nextToken (l : Lexer) : Option (Token × Lexer) :=
  let l := l.skipWhitespace
  if l.ch = byte ';' then some (l.single .tokenSemicolon)
  else if l.ch = byte ',' then some (l.single .tokenComma)
  else if l.ch = byte '/' then some (l.single .tokenSlash)
  else if l.ch = byte '-' then some (l.single .tokenDash)
  else if l.ch = byte '\'' then
    (l.readQuotedString (byte '\'')).map fun r => (⟨.tokenQuotedString, r.1⟩, r.2)
  else if l.ch = byte '"' then
    (l.readQuotedString (byte '"')).map fun r => (⟨.tokenQuotedString, r.1⟩, r.2)
  else if l.ch = byte '\\' then
    l.readMetaCommand.map fun r => (⟨.tokenIdentifier, r.1⟩, r.2)
  else if l.ch = 0 then some (⟨.tokenEOF, []⟩, l)
  else if isLetter l.ch then l.readIdentifier.bind fun r => r.2.lookupIdent r.1
  else if isDigit l.ch then l.readNumber
  else some (l.single .tokenIllegal)

/-- The tokens before the one for the end, with what of the input each of them was read from, if
the end comes within so many calls. -/
def tokens : ℕ → Lexer → Option (List (Token × Bytes))
  | 0, _ => none
  | calls + 1, l => l.nextToken.bind fun r =>
    if r.1.type = .tokenEOF then some []
    else (l.slice l.skipWhitespace.pos r.2.pos).bind fun source =>
      (tokens calls r.2).map ((r.1, source) :: ·)

end Lexer

end RagFlow.Cli
