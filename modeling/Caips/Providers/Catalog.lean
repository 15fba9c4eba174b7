/-
Caips.Providers.Catalog — the labs the key manager knows, after
`providers/catalog.py`, and the presets of `providers/local.py`.
-/
import Caips.Coreai.Keystore

namespace Caips.Providers

open Caips.Logic Caips.Coreai

deriving instance DecidableEq for Lab

/-- `CATALOG`. -/
def catalog : List Lab :=
  [ { id := "openai", kind := .native },
    { id := "anthropic", kind := .native },
    { id := "gemini", kind := .native },
    { id := "grok", kind := .native },
    { id := "meta", kind := .compat, baseUrl := "https://api.llama.com/compat/v1"
      model := "Llama-4-Maverick-17B-128E-Instruct-FP8" },
    { id := "nvidia", kind := .compat, baseUrl := "https://integrate.api.nvidia.com/v1"
      model := "meta/llama-3.3-70b-instruct" },
    { id := "perplexity", kind := .compat, baseUrl := "https://api.perplexity.ai", model := "sonar" },
    { id := "deepseek", kind := .native },
    { id := "qwen", kind := .compat, baseUrl := "https://dashscope-intl.aliyuncs.com/compatible-mode/v1"
      model := "qwen-plus" },
    { id := "moonshot", kind := .compat, baseUrl := "https://api.moonshot.ai/v1", model := "kimi-k2-0905-preview" },
    { id := "zhipu", kind := .compat, baseUrl := "https://api.z.ai/api/paas/v4", model := "glm-4.6" },
    { id := "minimax", kind := .compat, baseUrl := "https://api.minimax.io/v1", model := "MiniMax-M2" },
    { id := "doubao", kind := .compat, baseUrl := "https://ark.cn-beijing.volces.com/api/v3" },
    { id := "baidu", kind := .compat, baseUrl := "https://qianfan.baidubce.com/v2", model := "ernie-4.5-turbo-128k" },
    { id := "tencent", kind := .compat, baseUrl := "https://api.hunyuan.cloud.tencent.com/v1"
      model := "hunyuan-turbos-latest" },
    { id := "stepfun", kind := .compat, baseUrl := "https://api.stepfun.com/v1", model := "step-2-16k" },
    { id := "yi", kind := .compat, baseUrl := "https://api.lingyiwanwu.com/v1", model := "yi-lightning" },
    { id := "baichuan", kind := .compat, baseUrl := "https://api.baichuan-ai.com/v1", model := "Baichuan4-Turbo" },
    { id := "local", kind := .local },
    { id := "custom", kind := .custom } ]

/-- `PRESETS`. -/
def presets : Dict String String :=
  .ofList [("lmstudio", "http://localhost:1234/v1"), ("ollama", "http://localhost:11434/v1"),
    ("llama-server", "http://localhost:8080/v1"), ("vllm", "http://localhost:8000/v1")]

/-- The store's surroundings with this catalog; the cipher and `str.lower` are
whatever they are. -/
def keySetting (lower encrypt : String → String) (decrypt : String → Option String) (hasSecret : Bool) :
    KeySetting where
  catalog := catalog
  presets := presets
  lower := lower
  encrypt := encrypt
  decrypt := decrypt
  hasSecret := hasSecret

variable {lower encrypt : String → String} {decrypt : String → Option String} {hasSecret : Bool}
  {provider : String} {lab : Lab}

theorem mem_catalog (h : (keySetting lower encrypt decrypt hasSecret).byId.get? provider = some lab) :
    lab ∈ catalog ∧ provider = lab.id := by
  obtain ⟨l, hl, heq⟩ := List.mem_map.mp (Dict.mem_of_get?_ofList h)
  obtain ⟨rfl, rfl⟩ := Prod.mk.inj heq
  exact ⟨hl, rfl⟩

theorem kind_iff (h : (keySetting lower encrypt decrypt hasSecret).byId.get? provider = some lab) :
    (lab.kind = .local ∨ lab.kind = .custom) ↔ (provider = "local" ∨ provider = "custom") := by
  have hall : ∀ l ∈ catalog, (l.kind = .local ∨ l.kind = .custom) ↔ (l.id = "local" ∨ l.id = "custom") := by decide
  obtain ⟨hmem, rfl⟩ := mem_catalog h
  exact hall lab hmem

end Caips.Providers
