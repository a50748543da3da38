import SourceIndex.Error
import SourceIndex.Json.Record
/-!
# Embedding settings

Which service embeds texts, with which model, and whether everything it needs has been set.
-/

namespace SourceIndex

/-- The services that can embed texts. -/
inductive Provider where
  | openai
  | compatible
  | ollama
deriving DecidableEq, Repr

namespace Provider

def all : List Provider := [.openai, .compatible, .ollama]

def name : Provider → String
  | .openai => "openai"
  | .compatible => "openai-compatible"
  | .ollama => "ollama"

def ofName? (s : String) : Option Provider :=
  all.find? fun p => p.name == s

/-- The model that is used when none is set. -/
def defaultModel : Provider → String
  | .ollama => "nomic-embed-text"
  | _ => "text-embedding-3-small"

end Provider

/-- Settings of the embedding service. -/
structure EmbedSettings where
  provider : Provider := .openai
  model : Option String := none
  baseUrl : Option String := none
  apiKey : Option String := none
  /-- Overrides the known vector size of the model. -/
  dimension : Option Nat := none
deriving DecidableEq

/-- Known vector sizes of common models. -/
def modelDimensions : List (String × Nat) :=
  [("text-embedding-3-small", 1536), ("text-embedding-3-large", 3072),
   ("text-embedding-ada-002", 1536), ("nomic-embed-text", 768), ("nomic-embed-code", 3584),
   ("mxbai-embed-large", 1024), ("all-minilm", 384), ("bge-m3", 1024)]

/-- The known vector size of a model, whatever tag follows its name behind a colon. -/
def modelDimension? (model : String) : Option Nat :=
  let base := String.ofList (model.toList.takeWhile (· != ':'))
  (modelDimensions.find? fun entry => entry.1 == base).map (·.2)

namespace EmbedSettings

/-- The model to use: the one that is set unless it is blank. -/
def modelId (s : EmbedSettings) : String :=
  match s.model with
  | some model => if Text.isBlankText model then s.provider.defaultModel else model
  | none => s.provider.defaultModel

/-- The size of the vectors, if it is set or known. -/
def vectorSize? (s : EmbedSettings) : Option Nat :=
  s.dimension.or (modelDimension? s.modelId)

/-- Whether a setting is there and not blank. -/
def isPresent (value : Option String) : Bool :=
  value.any fun v => !Text.isBlankText v

/-- Whether the provider's needs are met and the vector size is known. -/
def isConfigured (s : EmbedSettings) : Bool :=
  let fields := match s.provider with
    | .openai => isPresent s.apiKey
    | .compatible => isPresent s.apiKey && isPresent s.baseUrl
    | .ollama => true
  fields && s.vectorSize?.isSome

/-- Read settings; every field may be left out. -/
def ofJson? (j : Json) : Option EmbedSettings := do
  let m ← Json.Members.of? 5 j
  let text := Json.Members.nullable Json.asStr?
  let provider ← m.defaulted 0 "provider" .openai (Json.decodeTag Provider.ofName?)
  let model ← m.defaulted 1 "model" none text
  let baseUrl ← m.defaulted 2 "base_url" none text
  let apiKey ← m.defaulted 3 "api_key" none text
  let dimension ← m.defaulted 4 "dimension" none (Json.Members.nullable (Json.decodeWord 64))
  some { provider, model, baseUrl, apiKey, dimension }

end EmbedSettings

end SourceIndex
