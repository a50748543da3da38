import SourceIndex.Embed.Http
import SourceIndex.Embed.Settings
import SourceIndex.Json.Parser
import SourceIndex.Point.Basic
/-!
# Embedding clients

The request a service is sent for a list of texts and what its answer means. `Client.ofSettings`
builds a client from settings, `Client.embed` runs one exchange. An answer must hold one vector for
each text; where items carry an index, they are put in its order.
-/

namespace SourceIndex.Embed

/-- How many tokens a request took. -/
structure Usage where
  promptTokens : Nat := 0
  totalTokens : Nat := 0
deriving DecidableEq

/-- The vectors of a request's texts. -/
structure Embeddings where
  vectors : List Vector32 := []
  usage : Option Usage := none

/-- The message format that a service speaks. -/
inductive Dialect where
  | openai (apiKey : String)
  | ollama
deriving DecidableEq

/-- A service that can be asked for embeddings. -/
structure Client where
  dialect : Dialect
  url : String
  model : String
deriving DecidableEq

/-- Where the hosted service answers. -/
def hostedBase : String := "https://api.openai.com/v1"

/-- Where a local service answers unless told otherwise. -/
def localBase : String := "http://localhost:11434"

/-- The embedding endpoint below a base address. -/
def embeddingsUrl (base : String) : String :=
  Text.trimEndChar '/' base ++ "/embeddings"

/-- The local embedding endpoint below a base address. -/
def localUrl (base : String) : String :=
  Text.trimEndChar '/' base ++ "/api/embed"

/-- A setting that must be there and not blank. -/
def require (value : Option String) (what : String) : Except ServiceError String :=
  match value with
  | some v =>
    if Text.isBlankText v then .error (.configuration s!"{what} is required") else .ok v
  | none => .error (.configuration s!"{what} is required")

/-- The client that settings describe. -/
def Client.ofSettings (s : EmbedSettings) : Except ServiceError Client :=
  match s.provider with
  | .openai => do
    let key ← require s.apiKey "OpenAI API key"
    .ok ⟨.openai key, embeddingsUrl hostedBase, s.modelId⟩
  | .compatible => do
    let base ← require s.baseUrl "OpenAI-compatible base URL"
    let key ← require s.apiKey "OpenAI-compatible API key"
    .ok ⟨.openai key, embeddingsUrl base, s.modelId⟩
  | .ollama => .ok ⟨.ollama, localUrl (s.baseUrl.getD localBase), s.modelId⟩

/-- The request for a list of texts. -/
def Client.request (c : Client) (texts : List String) (model : Option String) : Http.Request :=
  let model := Json.str (model.getD c.model)
  match c.dialect with
  | .openai key =>
    { url := c.url
      bearer := some key
      body := .obj [("input", .ofStrings texts), ("model", model),
        ("encoding_format", .str "float")] }
  | .ollama =>
    { url := c.url, bearer := none, body := .obj [("model", model), ("input", .ofStrings texts)] }

/-! ## Reading answers -/

/-- One vector with the position of its text, zero if the service gave none. -/
structure Item where
  vector : Vector32
  index : Nat

def decodeVector : Json → Option Vector32 :=
  Json.decodeList Json.decodeFloat32

def Item.ofJson? (j : Json) : Option Item := do
  let m ← Json.Members.of? 2 j
  let vector ← m.required 0 "embedding" decodeVector
  let index ← m.defaulted 1 "index" 0 (Json.decodeWord 64)
  some ⟨vector, index⟩

def Usage.ofJson? (j : Json) : Option Usage := do
  let m ← Json.Members.of? 2 j
  let promptTokens ← m.defaulted 0 "prompt_tokens" 0 (Json.decodeWord 64)
  let totalTokens ← m.defaulted 1 "total_tokens" 0 (Json.decodeWord 64)
  some { promptTokens, totalTokens }

/-- The items of an answer put in the order of their indices; equal indices keep the server's
order. -/
def inIndexOrder (items : List Item) : List Vector32 :=
  (items.mergeSort fun a b => a.index ≤ b.index).map (·.vector)

/-- What the items of an answer mean for `count` texts. -/
def ofItems (count : Nat) (items : List Item) (usage : Option Usage) :
    Except ServiceError Embeddings :=
  if items.length != count then .error (.wrongCount count items.length)
  else .ok ⟨inIndexOrder items, usage⟩

/-- The message of a service's error answer: the one it wraps in JSON, or else its whole text. -/
def errorText (body : String) : String :=
  let wrapped := do
    let j ← Json.parse body
    let outer ← Json.Members.of? 1 j
    outer.required 0 "error" fun e => do
      let inner ← Json.Members.of? 1 e
      inner.required 0 "message" Json.asStr?
  wrapped.getD body

/-- An answer whose body cannot be understood. -/
def unreadable : ServiceError := .http "error decoding response body"

/-- What a response means for `count` texts. -/
def interpret (dialect : Dialect) (count : Nat) (r : Http.Response) :
    Except ServiceError Embeddings :=
  match dialect with
  | .openai _ =>
    if !r.isSuccess then
      let text := errorText r.body
      if r.status == 429 then .error (.rateLimited text)
      else .error (.embedding s!"HTTP {Http.statusText r.status}: {text}")
    else
      let answer := do
        let j ← Json.parse r.body
        let m ← Json.Members.of? 2 j
        let items ← m.required 0 "data" (Json.decodeList Item.ofJson?)
        let usage ← m.defaulted 1 "usage" none (Json.Members.nullable Usage.ofJson?)
        some (items, usage)
      match answer with
      | some (items, usage) => ofItems count items usage
      | none => .error unreadable
  | .ollama =>
    if !r.isSuccess then
      .error (.embedding s!"Ollama HTTP {Http.statusText r.status}: {r.body}")
    else
      let answer := do
        let j ← Json.parse r.body
        let m ← Json.Members.of? 1 j
        m.required 0 "embeddings" (Json.decodeList decodeVector)
      match answer with
      | some vectors =>
        if vectors.length != count then .error (.wrongCount count vectors.length)
        else .ok ⟨vectors, none⟩
      | none => .error unreadable

/-- Ask for the vectors of `texts`. Nothing is sent for no texts. -/
def Client.embed (c : Client) (exchange : Http.Exchange) (texts : List String)
    (model : Option String) : Except ServiceError Embeddings :=
  if texts.isEmpty then .ok {}
  else
    match exchange (c.request texts model) with
    | some response => interpret c.dialect texts.length response
    | none => .error (.http s!"error sending request for url ({c.url})")

end SourceIndex.Embed
