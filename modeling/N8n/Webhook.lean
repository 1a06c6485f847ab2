import Mathlib.Data.List.Infix
import N8n.OrderedMap

/-! Production webhooks: the stored entity, how the webhook of a node becomes one, and
how a webhook is looked up for a request path.

A path is split at its slashes. A segment that starts with a colon is a parameter, and
a webhook whose path has one is dynamic: its request paths start with its `webhookId`,
which the stored path does not contain. Columns that may be null are options. -/

namespace N8n.Webhooks

inductive Method
  | delete
  | get
  | head
  | patch
  | post
  | put
  deriving DecidableEq

def Method.text : Method → String
  | .delete => "DELETE"
  | .get => "GET"
  | .head => "HEAD"
  | .patch => "PATCH"
  | .post => "POST"
  | .put => "PUT"

/-! ## Paths -/

/-- `path.split('/')`. -/
def segments (path : String) : List String := (path.toList.splitOn '/').map String.ofList

/-- `segment.startsWith(':')`. -/
def isParam (segment : String) : Bool := segment.toList.head? = some ':'

def trimLeadingSlash (path : String) : String :=
  if path.toList.head? = some '/' then String.ofList path.toList.tail else path

def trimTrailingSlash (path : String) : String :=
  if path.toList.getLast? = some '/' then String.ofList path.toList.dropLast else path

/-! ## The entity -/

structure WebhookEntity where
  workflowId : String
  webhookPath : String
  method : Method
  node : String
  webhookId : Option String
  pathLength : Option ℕ
  deriving DecidableEq

/-- The text under which `findCached` looks for a request. -/
def requestKey (method : Method) (path : String) : String :=
  "webhook:" ++ method.text ++ "-" ++ path

namespace WebhookEntity

def id (webhook : WebhookEntity) : Method × String := (webhook.method, webhook.webhookPath)

/-- A missing `webhookId` is joined as an empty text. -/
def uniquePath (webhook : WebhookEntity) : String :=
  if ':' ∈ webhook.webhookPath.toList then webhook.webhookId.getD "" ++ "/" ++ webhook.webhookPath
  else webhook.webhookPath

def cacheKey (webhook : WebhookEntity) : String := requestKey webhook.method webhook.uniquePath

def staticSegments (webhook : WebhookEntity) : List String :=
  (segments webhook.webhookPath).filter fun segment => !isParam segment

def isDynamic (webhook : WebhookEntity) : Bool := (segments webhook.webhookPath).any isParam

end WebhookEntity

/-! ## Registration -/

/-- What `addWebhooks` knows about a webhook of a node. -/
structure WebhookData where
  workflowId : String
  path : String
  node : String
  httpMethod : Method
  nodeWebhookId : Option String
  deriving DecidableEq

/-- The test of `addWebhooks` for a path with parameters. -/
def hasParams (path : String) : Bool :=
  isParam path || decide (['/', ':'] <:+: path.toList)

/-- The entity that `addWebhooks` stores. The id of the node is kept for a path with
parameters only, and an empty id counts as missing. -/
def createWebhook (data : WebhookData) : WebhookEntity :=
  let webhookPath := trimTrailingSlash (trimLeadingSlash data.path)
  let webhookId := if hasParams data.path then data.nodeWebhookId.filter (· ≠ "") else none
  { workflowId := data.workflowId
    webhookPath := webhookPath
    method := data.httpMethod
    node := data.node
    webhookId := webhookId
    pathLength := webhookId.map fun _ => (segments webhookPath).length }

/-! ## Lookup -/

/-- The rows that `findDynamicWebhook` compares with the rest of the request path. -/
def dynamicWebhooks (rows : List WebhookEntity) (uuidSegment : String) (otherSegments : List String)
    (method : Option Method) : List WebhookEntity :=
  rows.filter fun webhook =>
    webhook.webhookId = some uuidSegment ∧ (∀ m ∈ method, webhook.method = m) ∧
      webhook.pathLength = some otherSegments.length

structure Scan where
  webhook : Option WebhookEntity
  maxMatches : ℕ
  deriving DecidableEq

def allStaticSegmentsMatch (requestSegments : List String) (webhook : WebhookEntity) : Bool :=
  webhook.staticSegments.all (· ∈ requestSegments)

/-- The second branch is for a path of parameters only, which matches anything. -/
def scanStep (requestSegments : List String) (acc : Scan) (webhook : WebhookEntity) : Scan :=
  if allStaticSegmentsMatch requestSegments webhook ∧ acc.maxMatches < webhook.staticSegments.length then
    ⟨some webhook, webhook.staticSegments.length⟩
  else if webhook.staticSegments.length = 0 ∧ acc.webhook = none then
    { acc with webhook := some webhook }
  else acc

/-- The first segment of the request path is the id and the others are a set. -/
def findDynamicWebhook (rows : List WebhookEntity) (path : String) (method : Option Method) :
    Option WebhookEntity :=
  match segments path with
  | [] => none
  | uuidSegment :: otherSegments =>
    ((dynamicWebhooks rows uuidSegment otherSegments method).foldl (scanStep otherSegments) ⟨none, 0⟩).webhook

/-! ## Path parameters -/

/-- One round of the loop of `LiveWebhooks.executeWebhook` that writes the parameters. -/
def writeParam (pathElements : List String) (params : OrderedMap String (Option String))
    (ele : String × ℕ) : OrderedMap String (Option String) :=
  if isParam ele.1 then params.set (String.ofList ele.1.toList.tail) pathElements[ele.2]? else params

/-- The parameters are read from the request as it came in, before a trailing slash is
taken off for the lookup. -/
def requestParams (webhook : WebhookEntity) (path : String) : OrderedMap String (Option String) :=
  (segments webhook.webhookPath).zipIdx.foldl (writeParam (segments path).tail) .empty

end N8n.Webhooks
